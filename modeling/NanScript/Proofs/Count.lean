import Mathlib.Data.List.Nodup

/-!
# Counting numbers

How many numbers of a list have a property, when one of them gains it, and when as many have it as have a weaker one.
-/

namespace NanScript

/-- A number that turns from one side of a predicate to the other is counted once. -/
theorem countP_of_turned {ids : List Nat} {id : Nat} (before after : Nat → Bool) (hnodup : ids.Nodup) (hmem : id ∈ ids)
    (hbefore : before id = false) (hafter : after id = true) (hsame : ∀ other, other ≠ id → after other = before other) :
    ids.countP after = ids.countP before + 1 := by
  obtain ⟨front, back, rfl⟩ := List.append_of_mem hmem
  have hapart : ∀ other ∈ front ++ back, after other = before other := by
    intro other hother
    refine hsame other fun heq => ?_
    subst heq
    have hnot : other ∉ front ++ back := (List.nodup_cons.1 (List.nodup_middle.1 hnodup)).1
    exact hnot hother
  have hrest : (front ++ back).countP after = (front ++ back).countP before :=
    List.countP_congr fun other hother => by rw [hapart other hother]
  rw [List.countP_append, List.countP_append] at hrest
  simp only [List.countP_append, List.countP_cons, hbefore, hafter, if_true, Bool.false_eq_true, if_false]
  omega

/-- If as many numbers satisfy the stronger of two predicates as satisfy the weaker one, they are the same. -/
theorem forall_of_countP_le {ids : List Nat} {strong weak : Nat → Bool} (himp : ∀ id ∈ ids, strong id = true → weak id = true)
    (hcount : ids.countP weak ≤ ids.countP strong) : ∀ id ∈ ids, weak id = true → strong id = true := by
  induction ids with
  | nil => simp
  | cons first rest ih =>
    obtain ⟨hfirst, hrest⟩ := List.forall_mem_cons.1 himp
    have hle : rest.countP strong ≤ rest.countP weak := List.countP_mono_left hrest
    rw [List.countP_cons, List.countP_cons] at hcount
    have hstrong : weak first = true → strong first = true := by
      intro hweak
      by_contra hnot
      rw [if_pos hweak, if_neg hnot] at hcount
      omega
    refine List.forall_mem_cons.2 ⟨hstrong, ih hrest ?_⟩
    by_cases hboth : strong first = true
    · rw [if_pos hboth, if_pos (hfirst hboth)] at hcount
      omega
    · rw [if_neg hboth, if_neg fun hweak => hboth (hstrong hweak)] at hcount
      omega

end NanScript

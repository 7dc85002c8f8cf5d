import NanScript.Arena

/-!
# Arenas keep their nodes

A node is found under its number, whatever page it is on. Making a node changes no other one, and chaining nodes changes nothing
but their links.
-/

namespace NanScript.Arena

open List

variable {κ : Type} {arena : Arena κ} {id : Nat} {kind : κ} {line : Nat}

/-- Every page but the last is full, and the last has a node. -/
structure Packed (arena : Arena κ) : Prop where
  count : arena.pages.size = (arena.size + pageSize - 1) / pageSize
  page : ∀ index page, arena.pages[index]? = some page → page.size = min pageSize (arena.size - index * pageSize)

theorem packed_empty : (empty : Arena κ).Packed := ⟨by simp [empty, pageSize], by simp [empty]⟩

/-! ### Making a node -/

section

variable (hpacked : arena.Packed)

include hpacked

theorem Packed.lastPageFull_iff : arena.lastPageFull = true ↔ arena.size % pageSize = 0 := by
  have hcount := hpacked.count
  unfold lastPageFull
  cases hback : arena.pages.back? with
  | none =>
    rw [Array.back?_eq_none_iff] at hback
    rw [hback] at hcount
    simp only [size_toArray, length_nil] at hcount
    simp only [pageSize] at hcount ⊢
    simp
    omega
  | some page =>
    rw [Array.back?_eq_getElem?] at hback
    have hsize := hpacked.page _ _ hback
    have hsome := (Array.getElem?_eq_some_iff.1 hback).1
    simp only [pageSize, beq_iff_eq] at hcount hsize ⊢
    omega

theorem Packed.size_pages :
    arena.pages.size = if arena.size % pageSize = 0 then arena.size / pageSize else arena.size / pageSize + 1 := by
  have hcount := hpacked.count
  split <;> simp only [pageSize] at * <;> omega

/-- The page that the next node goes on, empty if it is a new one. -/
def lastPage (arena : Arena κ) : Array (Node κ) := arena.pages[arena.size / pageSize]?.getD #[]

theorem Packed.size_lastPage : arena.lastPage.size = arena.size % pageSize := by
  have hsize := hpacked.size_pages
  unfold lastPage
  cases hpage : arena.pages[arena.size / pageSize]? with
  | none =>
    have hout := Array.getElem?_eq_none_iff.1 hpage
    split at hsize
    · next hmod => exact hmod.symm
    · omega
  | some page =>
    have hpage' := hpacked.page _ _ hpage
    rw [Option.getD_some, hpage']
    simp only [pageSize] at *
    omega

theorem Packed.getElem?_alloc (kind : κ) (line index : Nat) : (arena.alloc kind line).2.pages[index]? =
      if index = arena.size / pageSize then some (arena.lastPage.push ⟨kind, line, none⟩) else arena.pages[index]? := by
  have hsize := hpacked.size_pages
  have hfull := hpacked.lastPageFull_iff
  unfold alloc lastPage
  dsimp only
  split at hsize
  · next hmod =>
    rw [hfull.2 hmod, if_pos rfl, Array.size_push, Nat.add_sub_cancel, Array.getElem?_modify, Array.getElem?_push, hsize,
      Array.getElem?_eq_none (Nat.le_of_eq hsize)]
    by_cases hindex : index = arena.size / pageSize
    · simp [hindex]
    · simp [hindex, Ne.symm hindex]
  · next hmod =>
    have hlast : arena.lastPageFull = false := by
      rw [← Bool.not_eq_true, hfull]
      exact hmod
    have hinside : arena.size / pageSize < arena.pages.size := by omega
    rw [hlast, if_neg Bool.false_ne_true, hsize, Nat.add_sub_cancel, Array.getElem?_modify]
    by_cases hindex : index = arena.size / pageSize
    · simp [hindex, Array.getElem?_eq_getElem hinside]
    · simp [hindex, Ne.symm hindex]

theorem Packed.alloc (kind : κ) (line : Nat) : (arena.alloc kind line).2.Packed := by
  have hsize := hpacked.size_pages
  have hlast := hpacked.size_lastPage
  refine ⟨?_, fun index page hpage => ?_⟩
  · have hfull := hpacked.lastPageFull_iff
    unfold Arena.alloc
    dsimp only
    rw [Array.size_modify]
    split at hsize
    · next hmod =>
      rw [hfull.2 hmod, if_pos rfl, Array.size_push, hsize]
      simp only [pageSize] at *
      omega
    · next hmod =>
      rw [if_neg (fun hlast => hmod (hfull.1 hlast)), hsize]
      simp only [pageSize] at *
      omega
  · rw [hpacked.getElem?_alloc] at hpage
    rw [size_alloc]
    split at hpage
    · next hindex =>
      rw [← Option.some.inj hpage, Array.size_push, hlast, hindex]
      simp only [pageSize] at *
      omega
    · next hindex =>
      have hinside := (Array.getElem?_eq_some_iff.1 hpage).1
      rw [hpacked.page _ _ hpage]
      split at hsize <;> simp only [pageSize] at * <;> omega

omit hpacked in
theorem eq_iff_div_mod (first second : Nat) :
    first = second ↔ first / pageSize = second / pageSize ∧ first % pageSize = second % pageSize := by
  simp only [pageSize]
  omega

theorem Packed.get?_alloc (kind : κ) (line : Nat) (id : Nat) :
    (arena.alloc kind line).2.get? id = if id = arena.size then some ⟨kind, line, none⟩ else arena.get? id := by
  have hlast := hpacked.size_lastPage
  have hsame := eq_iff_div_mod id arena.size
  unfold get?
  rw [hpacked.getElem?_alloc]
  by_cases hpage : id / pageSize = arena.size / pageSize
  · rw [if_pos hpage, Option.bind_eq_bind, Option.bind_some, Array.getElem?_push, hlast]
    by_cases hplace : id % pageSize = arena.size % pageSize
    · rw [if_pos hplace, if_pos (hsame.2 ⟨hpage, hplace⟩)]
    · rw [if_neg hplace, if_neg (fun heq => hplace (hsame.1 heq).2), hpage, lastPage]
      cases arena.pages[arena.size / pageSize]? <;> simp
  · rw [if_neg hpage, if_neg (fun heq => hpage (hsame.1 heq).1)]

theorem Packed.isSome_get? (hid : id < arena.size) : (arena.get? id).isSome := by
  have hsize := hpacked.size_pages
  have hinside : id / pageSize < arena.pages.size := by
    split at hsize <;> simp only [pageSize] at * <;> omega
  have hpage := hpacked.page _ _ (Array.getElem?_eq_getElem hinside)
  have hplace : id % pageSize < (arena.pages[id / pageSize]).size := by
    rw [hpage]
    simp only [pageSize] at *
    omega
  unfold get?
  rw [Array.getElem?_eq_getElem hinside, Option.bind_eq_bind, Option.bind_some, Array.getElem?_eq_getElem hplace]
  rfl

theorem Packed.lt_size {node : Node κ} (hnode : arena.get? id = some node) : id < arena.size := by
  obtain ⟨page, hpage, hnode⟩ := Option.bind_eq_some_iff.1 hnode
  have hplace := (Array.getElem?_eq_some_iff.1 hnode).1
  rw [hpacked.page _ _ hpage] at hplace
  simp only [pageSize] at hplace
  omega

omit hpacked in
theorem get?_modify (arena : Arena κ) (target : Nat) (change : Node κ → Node κ) (id : Nat) :
    (arena.modify target change).get? id = if id = target then (arena.get? id).map change else arena.get? id := by
  have hsame : id = target ↔ target / pageSize = id / pageSize ∧ target % pageSize = id % pageSize :=
    eq_comm.trans (eq_iff_div_mod target id)
  unfold get? modify
  dsimp only
  rw [Array.getElem?_modify]
  by_cases hpage : target / pageSize = id / pageSize
  · rw [if_pos hpage]
    cases arena.pages[id / pageSize]? with
    | none => simp
    | some page =>
      simp only [Option.map_some, Option.bind_eq_bind, Option.bind_some, Array.getElem?_modify, hsame, hpage, true_and]
  · rw [if_neg hpage, if_neg (fun heq => hpage (hsame.1 heq).1)]

theorem Packed.modify (target : Nat) (change : Node κ → Node κ) : (arena.modify target change).Packed := by
  refine ⟨?_, fun index page hpage => ?_⟩
  · rw [size_modify]
    exact (Array.size_modify ..).trans hpacked.count
  · rw [size_modify]
    change (arena.pages.modify _ _)[index]? = some page at hpage
    rw [Array.getElem?_modify] at hpage
    split at hpage
    · obtain ⟨old, hold, rfl⟩ := Option.map_eq_some_iff.1 hpage
      rw [Array.size_modify]
      exact hpacked.page _ _ hold
    · exact hpacked.page _ _ hpage

/-! ### Chains of siblings -/

theorem Packed.chain (ids : List Nat) : (arena.chain ids).Packed := by
  fun_induction Arena.chain arena ids with
  | case1 => exact hpacked
  | case2 arena last => exact hpacked.modify _ _
  | case3 arena first second rest _ ih => exact ih (hpacked.modify _ _)
  | case4 => exact hpacked

end

theorem get?_setNext (arena : Arena κ) (target : Nat) (next : Option Nat) (id : Nat) :
    (arena.setNext target next).get? id =
      if id = target then (arena.get? id).map ({ · with next }) else arena.get? id := get?_modify arena target _ id

variable {ids : List Nat}

theorem get?_chain_of_notMem (hid : id ∉ ids) : (arena.chain ids).get? id = arena.get? id := by
  fun_induction Arena.chain arena ids with
  | case1 => rfl
  | case2 arena last => rw [get?_setNext, if_neg (ne_of_not_mem_cons hid)]
  | case3 arena first second rest _ ih =>
    rw [ih (not_mem_of_not_mem_cons hid), get?_setNext, if_neg (ne_of_not_mem_cons hid)]
  | case4 => rfl

theorem map_get?_chain (arena : Arena κ) (ids : List Nat) (id : Nat) :
    ((arena.chain ids).get? id).map (fun node => (node.kind, node.line)) =
      (arena.get? id).map fun node => (node.kind, node.line) := by
  have hset (arena : Arena κ) (target : Nat) (next : Option Nat) :
      ((arena.setNext target next).get? id).map (fun node => (node.kind, node.line)) =
        (arena.get? id).map fun node => (node.kind, node.line) := by
    rw [get?_setNext]
    split
    · rw [Option.map_map]
      rfl
    · rfl
  fun_induction Arena.chain arena ids with
  | case1 => rfl
  | case2 arena last => exact hset _ _ _
  | case3 arena first second rest _ ih => exact ih.trans (hset _ _ _)
  | case4 => rfl

/-- The number behind another one in a list. -/
def successor (id : NodeId) : List NodeId → Option NodeId
  | first :: second :: rest => if id = first then some second else successor id (second :: rest)
  | _ => none

theorem get?_chain (hnodup : ids.Nodup) (hsize : ∀ id ∈ ids, id < arena.size) (id : Nat) : (arena.chain ids).get? id =
      if id ∈ ids then (arena.get? id).map ({ · with next := successor id ids }) else arena.get? id := by
  split
  · next hid =>
    fun_induction Arena.chain arena ids with
    | case1 => contradiction
    | case2 arena last => rw [get?_setNext, if_pos (mem_singleton.1 hid)]; rfl
    | case3 arena first second rest _ ih =>
      obtain ⟨hnew, hnodup⟩ := nodup_cons.1 hnodup
      rw [successor]
      split
      · next hfirst => rw [hfirst, get?_chain_of_notMem hnew, get?_setNext, if_pos rfl]
      · next hother =>
        rw [ih hnodup (fun id hid => hsize id (mem_cons_of_mem _ hid)) ((mem_cons.1 hid).resolve_left hother),
          get?_setNext, if_neg hother]
    | case4 arena first _ _ hfirst => exact absurd (hsize first mem_cons_self) hfirst
  · next hid => exact get?_chain_of_notMem hid

variable {next : Nat}

theorem mem_of_successor (hnext : successor id ids = some next) : id ∈ ids ∧ next ∈ ids.tail := by
  fun_induction successor id ids with
  | case1 second rest => simp_all
  | case2 first second rest hother ih =>
    obtain ⟨hid, htail⟩ := ih hnext
    exact ⟨mem_cons_of_mem _ hid, mem_cons_of_mem _ htail⟩
  | case3 => cases hnext

theorem lt_of_successor (hsorted : ids.Pairwise (· < ·)) (hnext : successor id ids = some next) : id < next := by
  fun_induction successor id ids with
  | case1 second rest => exact (pairwise_cons.1 hsorted).1 next (by simp_all)
  | case2 first second rest hother ih => exact ih (pairwise_cons.1 hsorted).2 hnext
  | case3 => cases hnext

theorem successor_injective (hnodup : ids.Nodup) {other : Nat} (hnext : successor id ids = some next)
    (hother : successor other ids = some next) : id = other := by
  induction ids with
  | nil => cases hnext
  | cons first rest ih =>
    obtain ⟨-, hrest⟩ := nodup_cons.1 hnodup
    cases rest with
    | nil => cases hnext
    | cons second rest =>
      have hlater {id : Nat} (hid : successor id (second :: rest) = some second) : False :=
        (nodup_cons.1 hrest).1 (mem_of_successor hid).2
      simp only [successor] at hnext hother
      split at hnext <;> split at hother
      · simp_all
      · exact (hlater (hother.trans hnext.symm)).elim
      · exact (hlater (hnext.trans hother.symm)).elim
      · exact ih hrest hnext hother

variable {limit : Nat}

theorem siblings_congr {arena' : Arena κ} (hsame : ∀ id ∈ ids, arena'.get? id = arena.get? id) {first : Option Nat}
    (hchain : arena.siblings limit first = some ids) : arena'.siblings limit first = some ids := by
  induction limit generalizing first ids with
  | zero => exact hchain
  | succ limit ih =>
    cases first with
    | none => exact hchain
    | some id =>
      simp only [siblings, Option.bind_eq_bind, Option.pure_def, Option.bind_eq_some_iff, Option.some.injEq] at hchain ⊢
      obtain ⟨node, hnode, rest, hrest, rfl⟩ := hchain
      refine ⟨node, (hsame id mem_cons_self).trans hnode, rest, ?_, rfl⟩
      exact ih (fun other hother => hsame other (mem_cons_of_mem _ hother)) hrest

theorem mem_siblings {first : Option Nat} (hchain : arena.siblings limit first = some ids) :
    ∀ member ∈ ids, member ∈ first ∨ ∃ other node, arena.get? other = some node ∧ member ∈ node.next := by
  induction limit generalizing first ids with
  | zero =>
    obtain rfl := Option.some.inj hchain
    exact nofun
  | succ limit ih =>
    cases first with
    | none =>
      obtain rfl := Option.some.inj hchain
      exact nofun
    | some first =>
      simp only [siblings, Option.bind_eq_bind, Option.pure_def, Option.bind_eq_some_iff, Option.some.injEq] at hchain
      obtain ⟨node, hnode, rest, hrest, rfl⟩ := hchain
      refine forall_mem_cons.2 ⟨.inl rfl, fun member hmember => .inr ?_⟩
      exact (ih hrest member hmember).elim (fun hnext => ⟨first, node, hnode, hnext⟩) fun hlink => hlink

theorem siblings_chain (hnodup : ids.Nodup) (hsize : ∀ id ∈ ids, id < arena.size)
    (hsome : ∀ id ∈ ids, (arena.get? id).isSome) (hlimit : ids.length ≤ limit) :
    (arena.chain ids).siblings limit ids.head? = some ids := by
  fun_induction Arena.chain arena ids generalizing limit with
  | case1 => cases limit <;> rfl
  | case2 arena last =>
    obtain ⟨limit, rfl⟩ := Nat.exists_eq_add_one_of_ne_zero (Nat.ne_of_gt hlimit)
    obtain ⟨node, hnode⟩ := Option.isSome_iff_exists.1 (hsome last mem_cons_self)
    simp only [head?_cons, siblings, get?_setNext, if_true, hnode, Option.map_some, Option.bind_eq_bind, Option.bind_some]
    cases limit <;> rfl
  | case3 arena first second rest hfirst ih =>
    obtain ⟨limit, rfl⟩ := Nat.exists_eq_add_one_of_ne_zero (Nat.ne_of_gt (Nat.lt_of_lt_of_le (Nat.succ_pos _) hlimit))
    obtain ⟨hnew, hnodup⟩ := nodup_cons.1 hnodup
    obtain ⟨node, hnode⟩ := Option.isSome_iff_exists.1 (hsome first mem_cons_self)
    have hsome' : ∀ id ∈ second :: rest, ((arena.setNext first (some second)).get? id).isSome := by
      intro id hid
      have hother : id ≠ first := by
        rintro rfl
        exact hnew hid
      rw [get?_setNext, if_neg hother]
      exact hsome id (mem_cons_of_mem _ hid)
    have hrest := ih hnodup (fun id hid => hsize id (mem_cons_of_mem _ hid)) hsome' (Nat.le_of_succ_le_succ hlimit)
    rw [head?_cons] at hrest ⊢
    simp only [siblings, get?_chain_of_notMem hnew, get?_setNext, if_true, hnode, Option.map_some, Option.bind_eq_bind,
      Option.bind_some, hrest, Option.pure_def]
  | case4 arena first second rest hfirst => exact absurd (hsize first mem_cons_self) hfirst

end NanScript.Arena

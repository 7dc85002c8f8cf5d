import Mathlib.Logic.Function.Basic
import NanScript.Probe
import NanScript.Proofs.Count

/-!
# Searching a table by linear probing

A table puts keys into slots. It is sound if the search for each key that it holds ends at the slot of that key: between
the home slot of a key and its place there is no empty slot, and no key stands in it twice (`Sound`). A new key goes to
the empty slot at which its own search ends. That keeps the table sound, because the search for another key, which does
not end there, did not come past that slot (`Sound.insert`). Any table with an empty slot ends every search
(`exists_find?`).
-/

namespace NanScript.Probe

open Function List

/-! ### The walk -/

variable {size steps slot found : Nat} {hash : UInt32} {stop narrow : Nat → Bool}

/-- A walk that ends nowhere has seen every slot on its way. -/
theorem stop_eq_false_of_seek (hnone : seek (· % size) stop steps slot = none) (hslot : slot < size) :
    ∀ distance < steps, stop ((slot + distance) % size) = false := by
  induction steps generalizing slot with
  | zero => simp
  | succ steps ih =>
    rw [seek] at hnone
    split at hnone
    · cases hnone
    · rename_i hstop
      intro distance hdistance
      cases distance with
      | zero => simpa [Nat.mod_eq_of_lt hslot] using hstop
      | succ distance =>
        have hnext := ih hnone (Nat.mod_lt _ (by omega)) distance (by omega)
        rwa [Nat.mod_add_mod, Nat.add_assoc, Nat.add_comm 1] at hnext

/-- A full round comes past every slot. -/
theorem exists_find? (hstop : ∃ position < size, stop position = true) : ∃ found, find? size hash stop = some found := by
  obtain ⟨position, hposition, hstop⟩ := hstop
  refine Option.ne_none_iff_exists'.1 fun hnone => ?_
  have hhome : hash.toNat % size < size := Nat.mod_lt _ (by omega)
  rw [find?] at hnone
  generalize hash.toNat % size = home at hhome hnone
  have hpassed := stop_eq_false_of_seek hnone hhome
  -- The distance from the home slot to the position, around the end if it lies before.
  have hdistance : ∃ distance < size, (home + distance) % size = position := by
    by_cases hbehind : home ≤ position
    · exact ⟨position - home, by omega, by rw [Nat.add_sub_cancel' hbehind, Nat.mod_eq_of_lt hposition]⟩
    · refine ⟨position + size - home, by omega, ?_⟩
      rw [show home + (position + size - home) = position + size by omega, Nat.add_mod_right, Nat.mod_eq_of_lt hposition]
  obtain ⟨distance, hlt, rfl⟩ := hdistance
  rw [hpassed distance hlt] at hstop
  cases hstop

/-- A search that stops at fewer slots ends where it did if it still stops there. -/
theorem seek_of_imp {wrap : Nat → Nat} (hfound : seek wrap stop steps slot = some found)
    (himp : ∀ position, narrow position = true → stop position = true) (hstill : narrow found = true) :
    seek wrap narrow steps slot = some found := by
  induction steps generalizing slot with
  | zero => cases hfound
  | succ steps ih =>
    rw [seek] at hfound ⊢
    split at hfound
    · obtain rfl := Option.some.inj hfound
      rw [if_pos hstill]
    · rename_i hnot
      rw [if_neg (mt (himp slot) hnot)]
      exact ih hfound

theorem find?_of_imp (hfound : find? size hash stop = some found)
    (himp : ∀ position, narrow position = true → stop position = true) (hstill : narrow found = true) :
    find? size hash narrow = some found := seek_of_imp hfound himp hstill

/-! ### Tables -/

variable {α : Type} [DecidableEq α] {hashOf : α → UInt32} {keys : Nat → Option α} {key : α}

/-- Whether a slot is empty or holds the key. -/
def stopsFor (keys : Nat → Option α) (key : α) (slot : Nat) : Bool := (keys slot).all (· == key)

theorem stopsFor_of_none (hslot : keys slot = none) : stopsFor keys key slot = true := by
  simp [stopsFor, hslot]

theorem stopsFor_iff : stopsFor keys key slot = true ↔ keys slot = none ∨ keys slot = some key := by
  cases hslot : keys slot <;> simp [stopsFor, hslot]

/-- The search for every key of the table ends where the key is. -/
def Sound (size : Nat) (hashOf : α → UInt32) (keys : Nat → Option α) : Prop :=
  ∀ slot < size, ∀ key, keys slot = some key → find? size (hashOf key) (stopsFor keys key) = some slot

theorem sound_empty : Sound size hashOf fun _ => none := by
  rintro slot - key ⟨⟩

theorem Sound.unique (hsound : Sound size hashOf keys) {first second : Nat} (hfirst : first < size) (hsecond : second < size)
    (hkey : keys first = some key) (hsame : keys second = some key) : first = second := by
  have htwice := (hsound first hfirst key hkey).symm.trans (hsound second hsecond key hsame)
  exact Option.some.inj htwice

/-- A search that ends at an empty slot is for a key that is not there. -/
theorem Sound.absent (hsound : Sound size hashOf keys) (hfound : find? size (hashOf key) (stopsFor keys key) = some found)
    (hempty : keys found = none) : ∀ slot < size, keys slot ≠ some key := by
  intro slot hslot hkey
  obtain rfl : slot = found := Option.some.inj ((hsound slot hslot key hkey).symm.trans hfound)
  rw [hempty] at hkey
  cases hkey

theorem Sound.insert (hsound : Sound size hashOf keys) (hfound : find? size (hashOf key) (stopsFor keys key) = some found)
    (hempty : keys found = none) : Sound size hashOf (update keys found (some key)) := by
  have habsent := hsound.absent hfound hempty
  intro slot hslot other hother
  by_cases hplace : slot = found
  · subst hplace
    rw [update_self] at hother
    obtain rfl := Option.some.inj hother
    refine find?_of_imp hfound (fun position hposition => ?_) ?_
    · by_cases hsame : position = slot
      · exact hsame ▸ stopsFor_of_none hempty
      · simpa [stopsFor, update_of_ne hsame] using hposition
    · simp [stopsFor]
  · rw [update_of_ne hplace] at hother
    have hkey : key ≠ other := fun heq => habsent slot hslot (heq ▸ hother)
    refine find?_of_imp (hsound slot hslot other hother) (fun position hposition => ?_) ?_
    · by_cases hsame : position = found
      · exact hsame ▸ stopsFor_of_none hempty
      · simpa [stopsFor, update_of_ne hsame] using hposition
    · simp [stopsFor, update_of_ne hplace, hother]

theorem Sound.of_hash {hashOther : α → UInt32} (hsound : Sound size hashOf keys)
    (hsame : ∀ slot < size, ∀ key, keys slot = some key → hashOther key = hashOf key) : Sound size hashOther keys := by
  intro slot hslot key hkey
  rw [hsame slot hslot key hkey]
  exact hsound slot hslot key hkey

/-! ### Finite maps -/

variable {β : Type} {values : Nat → β} {content : α → Option β} {value : β}

/-- A sound table with a value in each slot stands for a map. -/
structure Maps (size : Nat) (hashOf : α → UInt32) (keys : Nat → Option α) (values : Nat → β) (content : α → Option β) : Prop where
  sound : Sound size hashOf keys
  content : ∀ key value, content key = some value ↔ ∃ slot < size, keys slot = some key ∧ values slot = value

def used (size : Nat) (keys : Nat → Option α) : Nat := (range size).countP fun slot => (keys slot).isSome

theorem maps_empty : Maps size hashOf (fun _ => (none : Option α)) values fun _ => none := ⟨sound_empty, by simp⟩

omit [DecidableEq α] in
theorem used_empty : used size (fun _ => (none : Option α)) = 0 := by simp [used]

omit [DecidableEq α] in
theorem used_le : used size keys ≤ size := by
  have hle := countP_le_length (p := fun slot => (keys slot).isSome) (l := range size)
  rwa [length_range] at hle

omit [DecidableEq α] in
theorem exists_empty (hroom : used size keys < size) : ∃ slot < size, keys slot = none := by
  by_contra hfull
  have hall : used size keys = (range size).length := by
    refine countP_eq_length.2 fun slot hslot => ?_
    refine Option.isSome_iff_ne_none.2 fun hnone => hfull ⟨slot, mem_range.1 hslot, hnone⟩
  rw [length_range] at hall
  omega

/-- A table that is not full ends every search. -/
theorem exists_stop (hroom : used size keys < size) (hash : UInt32) (key : α) :
    ∃ slot, find? size hash (stopsFor keys key) = some slot := by
  obtain ⟨slot, hslot, hnone⟩ := exists_empty hroom
  exact exists_find? ⟨slot, hslot, stopsFor_of_none hnone⟩

section

variable (hmaps : Maps size hashOf keys values content)

include hmaps

theorem Maps.content_eq (hsize : 0 < size) (hfound : find? size (hashOf key) (stopsFor keys key) = some found) :
    content key = (keys found).map fun _ => values found := by
  rcases stopsFor_iff.1 (stop_of_find? hfound) with hnone | hsome
  · rw [hnone, Option.map_none, Option.eq_none_iff_forall_ne_some]
    intro value hvalue
    obtain ⟨slot, hslot, hkey, -⟩ := (hmaps.content key value).1 hvalue
    exact hmaps.sound.absent hfound hnone slot hslot hkey
  · rw [hsome, Option.map_some]
    exact (hmaps.content key (values found)).2 ⟨found, find?_lt hsize hfound, hsome, rfl⟩

theorem Maps.set (hsize : 0 < size) (hfound : find? size (hashOf key) (stopsFor keys key) = some found) (value : β) :
    Maps size hashOf (update keys found (some key)) (update values found value)
      (update content key (some value)) := by
  have hlt := find?_lt hsize hfound
  have hsound : Sound size hashOf (update keys found (some key)) := by
    rcases stopsFor_iff.1 (stop_of_find? hfound) with hnone | hsome
    · exact hmaps.sound.insert hfound hnone
    · rw [← hsome, update_eq_self]
      exact hmaps.sound
  refine ⟨hsound, fun other stored => ?_⟩
  by_cases hkey : other = key
  · subst hkey
    rw [update_self]
    constructor
    · intro hvalue
      exact ⟨found, hlt, update_self .., (update_self ..).trans (Option.some.inj hvalue)⟩
    · rintro ⟨slot, hslot, hother, hstored⟩
      obtain rfl : slot = found := hsound.unique hslot hlt hother (update_self ..)
      rw [update_self] at hstored
      rw [hstored]
  · rw [update_of_ne hkey, hmaps.content]
    have hslots (slot : Nat) : update keys found (some key) slot = some other ↔ keys slot = some other := by
      by_cases hslot : slot = found
      · subst hslot
        rw [update_self]
        refine iff_of_false (fun hsame => hkey (Option.some.inj hsame).symm) fun hother => ?_
        rcases stopsFor_iff.1 (stop_of_find? hfound) with hnone | hsome
        · rw [hnone] at hother
          cases hother
        · exact hkey (Option.some.inj (hother.symm.trans hsome))
      · rw [update_of_ne hslot]
    have hapart (slot : Nat) (hother : keys slot = some other) : slot ≠ found := by
      rintro rfl
      have := (hslots slot).2 hother
      rw [update_self] at this
      exact hkey (Option.some.inj this).symm
    constructor
    · rintro ⟨slot, hslot, hother, hstored⟩
      exact ⟨slot, hslot, (hslots slot).2 hother, by rw [update_of_ne (hapart slot hother), hstored]⟩
    · rintro ⟨slot, hslot, hother, hstored⟩
      have hother := (hslots slot).1 hother
      exact ⟨slot, hslot, hother, by rwa [update_of_ne (hapart slot hother)] at hstored⟩

omit hmaps in
omit [DecidableEq α] in
theorem used_update (hlt : found < size) (key : α) :
    used size (update keys found (some key)) = used size keys + if keys found = none then 1 else 0 := by
  unfold used
  by_cases hnone : keys found = none
  · rw [if_pos hnone]
    refine countP_of_turned _ _ nodup_range (mem_range.2 hlt) (by rw [hnone]; rfl) (by simp) fun other hother => ?_
    rw [update_of_ne hother]
  · rw [if_neg hnone]
    refine countP_congr fun other _ => ?_
    by_cases hother : other = found
    · rw [hother, update_self]
      exact iff_of_true rfl (Option.isSome_iff_ne_none.2 hnone)
    · rw [update_of_ne hother]

/-! ### What a map says about its tables -/

theorem Maps.mem_keys {key : α} : key ∈ (range size).filterMap keys ↔ content key ≠ none := by
  simp only [mem_filterMap, mem_range, Option.ne_none_iff_exists', hmaps.content]
  constructor
  · rintro ⟨slot, hslot, hkey⟩
    exact ⟨values slot, slot, hslot, hkey, rfl⟩
  · rintro ⟨value, slot, hslot, hkey, -⟩
    exact ⟨slot, hslot, hkey⟩

omit hmaps in
theorem Sound.nodup_keys (hsound : Sound size hashOf keys) : ((range size).filterMap keys).Nodup := by
  refine pairwise_filterMap.2 (nodup_range.imp_of_mem fun hfirst hsecond hne key hkey other hother => ?_)
  rintro rfl
  exact hne (hsound.unique (mem_range.1 hfirst) (mem_range.1 hsecond) hkey hother)

/-- A table uses as many slots as its map has keys. -/
theorem Maps.used_eq {all : List α} (hnodup : all.Nodup) (hall : ∀ key, key ∈ all ↔ content key ≠ none) :
    used size keys = all.length := by
  rw [used, ← length_filterMap_eq_countP]
  refine ((perm_ext_iff_of_nodup hmaps.sound.nodup_keys hnodup).2 fun key => ?_).length_eq
  rw [hmaps.mem_keys, hall]

theorem Maps.used_eq_used {width : Nat} {others : Nat → Option α} {contents : Nat → β}
    (hother : Maps width hashOf others contents content) : used size keys = used width others := by
  rw [hmaps.used_eq hother.sound.nodup_keys fun key => hother.mem_keys, used, length_filterMap_eq_countP]

/-- A map with the entry of a slot put into it. -/
def putSlot (keys : Nat → Option α) (values : Nat → β) (content : α → Option β) (slot : Nat) : α → Option β :=
  (keys slot).elim content fun key => update content key (some (values slot))

omit hmaps in
/-- The entries of the first slots of a table, put together in the order of the slots. -/
theorem Sound.foldl_putSlot (hsound : Sound size hashOf keys) {count : Nat} (hcount : count ≤ size) (key : α) (value : β) :
    (range count).foldl (putSlot keys values) (fun _ => none) key = some value ↔
      ∃ slot < count, keys slot = some key ∧ values slot = value := by
  induction count generalizing value with
  | zero => simp
  | succ count ih =>
    have ih := ih (by omega)
    rw [range_succ, foldl_append, foldl_cons, foldl_nil, putSlot]
    have hskip (hslot : keys count ≠ some key) : (∃ slot < count + 1, keys slot = some key ∧ values slot = value) ↔
        ∃ slot < count, keys slot = some key ∧ values slot = value := by
      constructor
      · rintro ⟨slot, hlt, hkey, hvalue⟩
        have hne : slot ≠ count := fun hsame => hslot (hsame ▸ hkey)
        exact ⟨slot, by omega, hkey, hvalue⟩
      · rintro ⟨slot, hlt, hentry⟩
        exact ⟨slot, by omega, hentry⟩
    -- The new slot is empty, or has the key, or another one.
    cases hslot : keys count with
    | none => rw [Option.elim_none, ih, hskip (by simp [hslot])]
    | some last =>
      rw [Option.elim_some]
      by_cases hkey : key = last
      · subst hkey
        rw [update_self]
        constructor
        · intro hvalue
          exact ⟨count, by omega, hslot, Option.some.inj hvalue⟩
        · rintro ⟨slot, hlt, hkey, rfl⟩
          rw [hsound.unique (by omega) (by omega) hkey hslot]
      · rw [update_of_ne hkey, ih, hskip (by simpa [hslot] using Ne.symm hkey)]

theorem Maps.foldl_putSlot_eq : (range size).foldl (putSlot keys values) (fun _ => none) = content := by
  funext key
  refine Option.ext fun value => ?_
  rw [hmaps.sound.foldl_putSlot (Nat.le_refl size), hmaps.content]

end

end NanScript.Probe

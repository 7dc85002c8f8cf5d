import Mathlib.Data.List.Induction
import Mathlib.Data.List.Nodup
import Mathlib.Data.List.Perm.Subperm
import NanScript.Interner
import NanScript.Proofs.Probe

/-!
# Numbers of strings

What an interner holds after any history is said by the list of the strings it has taken, in the order in which they
first came (`taken`). Two things are kept from call to call. The slots lead to every number once, by a table that is
sound for the hashes (`Indexed`). The entries mark the bytes of the strings, one behind the other, in the blocks
(`Stored`). A new string adds to both; a string that is there, or is too long, changes nothing.
-/

namespace NanScript.Interner

open Text Probe List

/-! ### The slots -/

/-- The slots hold each number below the number of hashes once, where a search for its hash finds it. -/
structure Indexed (slots : Array (Option Nat)) (hashes : List UInt32) : Prop where
  sound : Sound slots.size (fun index => hashes.getD index 0) (fun position => slots.getD position none)
  inside : ∀ position index, slots.getD position none = some index → index < hashes.length
  present : ∀ index < hashes.length, ∃ position < slots.size, slots.getD position none = some index

variable {slots : Array (Option Nat)} {hashes : List UInt32} {hash : UInt32}

theorem indexed_empty (size : Nat) : Indexed (Array.replicate size none) [] := by
  have hnone (position : Nat) : (Array.replicate size (none : Option Nat)).getD position none = none := by
    rw [Array.getD_eq_getD_getElem?, Array.getElem?_replicate]
    split <;> rfl
  refine ⟨?_, ?_, by simp⟩
  · simp only [hnone]
    exact sound_empty
  · intro position index hindex
    rw [hnone] at hindex
    cases hindex

theorem Indexed.exists_empty (hindexed : Indexed slots hashes) (hroom : hashes.length < slots.size) :
    ∃ position < slots.size, slots.getD position none = none := by
  refine Probe.exists_empty (Nat.lt_of_le_of_lt ?_ hroom)
  have hsubset : (range slots.size).filterMap (fun position => slots.getD position none) ⊆ range hashes.length := by
    intro index hindex
    obtain ⟨position, -, hslot⟩ := mem_filterMap.1 hindex
    exact mem_range.2 (hindexed.inside position index hslot)
  have hle := (hindexed.sound.nodup_keys.subperm hsubset).length_le
  rwa [length_filterMap_eq_countP, length_range] at hle

theorem Indexed.exists_vacant (hindexed : Indexed slots hashes) (hroom : hashes.length < slots.size) (hash : UInt32) :
    ∃ position, find? slots.size hash (fun position => (slots.getD position none).isNone) = some position := by
  obtain ⟨position, hposition, hempty⟩ := hindexed.exists_empty hroom
  exact exists_find? ⟨position, hposition, by rw [hempty]; rfl⟩

theorem Indexed.fillSlot (hindexed : Indexed slots hashes) (hroom : hashes.length < slots.size)
    (hpower : slots.size.isPowerOfTwo) (hash : UInt32) :
    Indexed (fillSlot slots hash hashes.length) (hashes ++ [hash]) ∧
      (fillSlot slots hash hashes.length).size = slots.size := by
  obtain ⟨found, hfound⟩ := hindexed.exists_vacant hroom hash
  have hlt : found < slots.size := find?_lt (by omega) hfound
  have hempty : slots.getD found none = none := Option.isNone_iff_eq_none.1 (stop_of_find? hfound)
  have hslots : Interner.fillSlot slots hash hashes.length = slots.setIfInBounds found (some hashes.length) := by
    rw [Interner.fillSlot, masked?_eq hpower, hfound]
  have hkeys : (fun position => (slots.setIfInBounds found (some hashes.length)).getD position none) =
      Function.update (fun position => slots.getD position none) found (some hashes.length) := by
    funext position
    by_cases hposition : position = found
    · simp [hposition, Array.getD_eq_getD_getElem?, hlt]
    · rw [Function.update_of_ne hposition, Array.getD_eq_getD_getElem?, Array.getElem?_setIfInBounds_ne (Ne.symm hposition),
        Array.getD_eq_getD_getElem?]
  -- The new number is in no slot yet, so the search for it is the search for an empty slot.
  have hstops : stopsFor (fun position => slots.getD position none) hashes.length =
      fun position => (slots.getD position none).isNone := by
    funext position
    cases hslot : slots.getD position none with
    | none => simp [stopsFor, hslot]
    | some index =>
      have hne : index ≠ hashes.length := Nat.ne_of_lt (hindexed.inside position index hslot)
      simp [stopsFor, hslot, hne]
  have hsound : Sound slots.size (fun index => (hashes ++ [hash]).getD index 0) (fun position => slots.getD position none) := by
    refine hindexed.sound.of_hash fun position _ index hindex => ?_
    have hinside := hindexed.inside position index hindex
    simp [getD_eq_getElem?_getD, getElem?_append_left hinside]
  have hsize : (slots.setIfInBounds found (some hashes.length)).size = slots.size := Array.size_setIfInBounds
  rw [hslots, hsize]
  refine ⟨⟨?_, ?_, ?_⟩, rfl⟩
  · rw [hsize, hkeys]
    refine hsound.insert ?_ hempty
    rw [hstops]
    simpa [getD_eq_getElem?_getD] using hfound
  · intro position index hindex
    have hindex := (congrFun hkeys position).symm.trans hindex
    rw [length_append, length_singleton]
    by_cases hposition : position = found
    · rw [hposition, Function.update_self] at hindex
      have := Option.some.inj hindex
      omega
    · rw [Function.update_of_ne hposition] at hindex
      have := hindexed.inside position index hindex
      omega
  · intro index hindex
    rw [length_append, length_singleton] at hindex
    rw [hsize]
    by_cases hnew : index = hashes.length
    · exact ⟨found, hlt, (congrFun hkeys found).trans (by rw [Function.update_self, hnew])⟩
    · obtain ⟨position, hposition, hslot⟩ := hindexed.present index (by omega)
      refine ⟨position, hposition, (congrFun hkeys position).trans ?_⟩
      rw [Function.update_of_ne, hslot]
      rintro rfl
      rw [hempty] at hslot
      cases hslot

/-- All numbers can be put into the slots anew, in order, if there is room. -/
theorem indexed_fillSlots {size : Nat} (hroom : hashes.length ≤ size) (hpower : size.isPowerOfTwo) :
    Indexed (fillSlots size hashes) hashes ∧ (fillSlots size hashes).size = size := by
  induction hashes using reverseRecOn with
  | nil => exact ⟨indexed_empty size, Array.size_replicate⟩
  | append_singleton front hash ih =>
    rw [length_append, length_singleton] at hroom
    obtain ⟨hindexed, hsize⟩ := ih (by omega)
    have hstep : fillSlots size (front ++ [hash]) = fillSlot (fillSlots size front) hash front.length := by
      simp [fillSlots, zipIdx_append]
    obtain ⟨hnext, hnextSize⟩ := hindexed.fillSlot (by omega) (by rwa [hsize]) hash
    rw [hstep]
    exact ⟨hnext, hnextSize.trans hsize⟩

/-! ### The bytes -/

/-- The byte behind every string. -/
def closing : ByteArray := ByteArray.empty.push 0

theorem push_zero (block : ByteArray) : block.push 0 = block ++ closing := by
  apply ByteArray.ext
  simp [closing, ByteArray.data_push, ByteArray.data_append]

/-- The bytes of a string, and a zero behind them, are where its entry says. -/
structure Entry.Marks (entry : Entry) (blocks : Array ByteArray) (text : String) : Prop where
  bytes : ∃ front back, blocks[entry.block]? = some (front ++ (text.toUTF8 ++ closing) ++ back) ∧ front.size = entry.offset
  length : entry.length = text.utf8ByteSize
  hash : entry.hash = Text.hash (utf8 text)

/-- The range of one entry, its closing zero included, ends before that of another begins. -/
def Entry.Before (entry other : Entry) : Prop :=
  entry.block < other.block ∨ entry.block = other.block ∧ entry.offset + entry.length + 1 ≤ other.offset

structure Stored (blocks : Array ByteArray) (entries : Array Entry) (strings : List String) : Prop where
  size : entries.size = strings.length
  marks : ∀ (index : Nat) (entry : Entry) (text : String), entries[index]? = some entry → strings[index]? = some text →
    entry.Marks blocks text
  apart : ∀ (first second : Nat) (entry other : Entry), first < second → entries[first]? = some entry →
    entries[second]? = some other → entry.Before other
  bounded : ∀ (position : Nat) (block : ByteArray), blocks[position]? = some block → block.size ≤ blockSize

variable {blocks : Array ByteArray} {entries : Array Entry} {strings : List String} {entry : Entry} {text : String}

theorem Entry.Marks.extract (hmarks : entry.Marks blocks text) : ∃ block, blocks[entry.block]? = some block ∧
    entry.offset + entry.length + 1 ≤ block.size ∧
    block.extract entry.offset (entry.offset + entry.length) = text.toUTF8 ∧
    block.data[entry.offset + entry.length]? = some 0 := by
  obtain ⟨front, back, hblock, hoffset⟩ := hmarks.bytes
  have hlength : text.toUTF8.size = entry.length := hmarks.length.symm
  refine ⟨_, hblock, ?_, ?_, ?_⟩
  · simp only [ByteArray.size_append, closing, ByteArray.size_push, ByteArray.size_empty, hoffset, hlength]
    omega
  · rw [ByteArray.append_assoc, ByteArray.append_assoc, ← hoffset, ← hlength]
    have hextract := ByteArray.extract_append_size_add (a := front) (b := text.toUTF8 ++ (closing ++ back)) (i := 0)
      (j := text.toUTF8.size)
    rw [Nat.add_zero] at hextract
    rw [hextract]
    exact ByteArray.extract_append_eq_left rfl
  · rw [ByteArray.append_assoc, ByteArray.append_assoc, ByteArray.data_append, ByteArray.data_append, ← hoffset, ← hlength,
      Array.getElem?_append_right (by simp), Array.getElem?_append_right (by simp)]
    rw [ByteArray.size_data, ByteArray.size_data, Nat.add_sub_cancel_left, Nat.sub_self, ByteArray.data_append,
      Array.getElem?_append_left (by decide)]
    rfl

/-- Bytes that are added at the end of a block leave what is marked in it. -/
theorem Entry.Marks.of_grown {after : Array ByteArray} (hmarks : entry.Marks blocks text)
    (hgrown : ∀ block, blocks[entry.block]? = some block → ∃ more, after[entry.block]? = some (block ++ more)) :
    entry.Marks after text := by
  obtain ⟨front, back, hblock, hoffset⟩ := hmarks.bytes
  obtain ⟨more, hmore⟩ := hgrown _ hblock
  exact ⟨⟨front, back ++ more, by rw [hmore, ByteArray.append_assoc], hoffset⟩, hmarks.length, hmarks.hash⟩

/-- The blocks that a string is added to: the last of them has room for it and its closing zero. -/
theorem exists_room (interner : Interner) {length : Nat} (hlength : length ≤ maxLength) :
    ∃ block, (if interner.fitsLastBlock length then interner.blocks else interner.blocks.push ByteArray.empty).back? =
        some block ∧ block.size + length + 1 ≤ blockSize := by
  have hempty : ByteArray.empty.size + length + 1 ≤ blockSize := by
    rw [ByteArray.size_empty]
    unfold maxLength blockSize at *
    omega
  unfold fitsLastBlock
  cases hlast : interner.blocks.back? with
  | none => exact ⟨ByteArray.empty, by simp, hempty⟩
  | some block =>
    by_cases hfits : block.size + length + 1 ≤ blockSize
    · exact ⟨block, by simp [hfits, hlast], hfits⟩
    · exact ⟨ByteArray.empty, by simp [hfits], hempty⟩

/-- A string that is added to the last of some blocks is marked by a new entry, behind all others. -/
theorem Stored.append {base : Array ByteArray} {block : ByteArray} (hstored : Stored blocks entries strings)
    (hlast : base.back? = some block) (hroom : block.size + text.utf8ByteSize + 1 ≤ blockSize)
    (hkept : ∀ (position : Nat) (old : ByteArray), blocks[position]? = some old → base[position]? = some old)
    (hbounded : ∀ (position : Nat) (old : ByteArray), base[position]? = some old → old.size ≤ blockSize) :
    Stored (base.modify (base.size - 1) fun block => (block ++ text.toUTF8).push 0)
      (entries.push ⟨base.size - 1, block.size, text.utf8ByteSize, Text.hash (utf8 text)⟩) (strings ++ [text]) := by
  have hblock : base[base.size - 1]? = some block := by rwa [← Array.back?_eq_getElem?]
  have hmodified (position : Nat) :
      (base.modify (base.size - 1) fun block => (block ++ text.toUTF8).push 0)[position]? =
        if base.size - 1 = position then some (block ++ (text.toUTF8 ++ closing)) else base[position]? := by
    rw [Array.getElem?_modify]
    split
    · rename_i hposition
      rw [← hposition, hblock, Option.map_some, push_zero, ByteArray.append_assoc]
    · rfl
  have hgrown (position : Nat) (old : ByteArray) (hold : blocks[position]? = some old) :
      ∃ more, (base.modify (base.size - 1) fun block => (block ++ text.toUTF8).push 0)[position]? = some (old ++ more) := by
    have hbase := hkept position old hold
    rw [hmodified]
    split
    · rename_i hposition
      obtain rfl : block = old := by
        rw [← hposition, hblock] at hbase
        exact Option.some.inj hbase
      exact ⟨_, rfl⟩
    · exact ⟨ByteArray.empty, by rw [hbase, ByteArray.append_empty]⟩
  have hbehind (index : Nat) (entry : Entry) (hentry : entries[index]? = some entry) :
      entry.Before ⟨base.size - 1, block.size, text.utf8ByteSize, hash (utf8 text)⟩ := by
    obtain ⟨hindex, -⟩ := Array.getElem?_eq_some_iff.1 hentry
    have hstring : index < strings.length := by rwa [← hstored.size]
    obtain ⟨old, hold, hend, -⟩ :=
      (hstored.marks index entry _ hentry (getElem?_eq_getElem hstring)).extract
    have hbase := hkept _ _ hold
    obtain ⟨hposition, -⟩ := Array.getElem?_eq_some_iff.1 hbase
    by_cases hsame : entry.block = base.size - 1
    · rw [hsame, hblock] at hbase
      obtain rfl := Option.some.inj hbase
      exact .inr ⟨hsame, hend⟩
    · exact .inl (show entry.block < base.size - 1 by omega)
  refine ⟨?_, ?_, ?_, ?_⟩
  · rw [Array.size_push, hstored.size, length_append, length_singleton]
  · intro index entry string hentry hstring
    rw [Array.getElem?_push] at hentry
    split at hentry
    · rename_i hindex
      obtain rfl := Option.some.inj hentry
      obtain rfl : text = string := by
        rw [hindex, hstored.size] at hstring
        simpa using hstring
      exact ⟨⟨block, ByteArray.empty, by rw [hmodified, if_pos rfl, ByteArray.append_empty], rfl⟩, rfl, rfl⟩
    · obtain ⟨hindex, -⟩ := Array.getElem?_eq_some_iff.1 hentry
      rw [getElem?_append_left (by rwa [← hstored.size])] at hstring
      exact (hstored.marks index entry string hentry hstring).of_grown (hgrown entry.block)
  · intro first second entry other hlt hentry hother
    rw [Array.getElem?_push] at hentry hother
    split at hother
    · obtain rfl := Option.some.inj hother
      rw [if_neg (by omega)] at hentry
      exact hbehind first entry hentry
    · obtain ⟨hsecond, -⟩ := Array.getElem?_eq_some_iff.1 hother
      rw [if_neg (by omega)] at hentry
      exact hstored.apart first second entry other hlt hentry hother
  · intro position old hold
    rw [hmodified] at hold
    split at hold
    · obtain rfl := Option.some.inj hold
      simp only [ByteArray.size_append, closing, ByteArray.size_push, ByteArray.size_empty]
      exact hroom
    · exact hbounded position old hold

theorem Stored.store {interner : Interner} (hstored : Stored interner.blocks interner.entries strings)
    (hfits : text.utf8ByteSize ≤ maxLength) :
    Stored (interner.store text (Text.hash (utf8 text))).blocks (interner.store text (Text.hash (utf8 text))).entries
      (strings ++ [text]) := by
  obtain ⟨block, hlast, hroom⟩ := exists_room interner hfits
  have hsize : text.toUTF8.size = text.utf8ByteSize := rfl
  unfold Interner.store
  simp only [hsize]
  have hoffset {base : Array ByteArray} (hlast : base.back? = some block) :
      (base.getD (base.size - 1) ByteArray.empty).size = block.size := by
    rw [Array.getD_eq_getD_getElem?, ← Array.back?_eq_getElem?, hlast]
    rfl
  rw [hoffset hlast]
  refine hstored.append hlast hroom ?_ ?_
  · intro position old hold
    split
    · exact hold
    · rw [Array.getElem?_push_lt (Array.getElem?_eq_some_iff.1 hold).1]
      exact (Array.getElem?_eq_getElem _).symm.trans hold
  · intro position old hold
    split at hold
    · exact hstored.bounded position old hold
    · rw [Array.getElem?_push] at hold
      split at hold
      · obtain rfl := Option.some.inj hold
        exact Nat.zero_le _
      · exact hstored.bounded position old hold

/-! ### An interner and its strings -/

/-- The interner has taken exactly these strings, in this order. -/
structure Holds (interner : Interner) (strings : List String) : Prop where
  nodup : strings.Nodup
  indexed : Indexed interner.slots (strings.map fun text => Text.hash (utf8 text))
  stored : Stored interner.blocks interner.entries strings
  power : interner.slots.size.isPowerOfTwo
  sparse : strings.length * 4 ≤ interner.slots.size * 3
  pair : 2 ≤ interner.slots.size

variable {interner : Interner} {index : Nat}

section

variable (hholds : Holds interner strings)

include hholds

theorem Holds.entry? (index : Nat) : interner.entries[index]? = none ∧ strings[index]? = none ∨ ∃ entry text,
    interner.entries[index]? = some entry ∧ strings[index]? = some text ∧ entry.Marks interner.blocks text := by
  cases hentry : interner.entries[index]? with
  | none =>
    rw [Array.getElem?_eq_none_iff, hholds.stored.size, ← getElem?_eq_none_iff] at hentry
    exact .inl ⟨rfl, hentry⟩
  | some entry =>
    obtain ⟨hindex, -⟩ := Array.getElem?_eq_some_iff.1 hentry
    rw [hholds.stored.size] at hindex
    have hstring := getElem?_eq_getElem hindex
    exact .inr ⟨entry, _, rfl, hstring, hholds.stored.marks index entry _ hentry hstring⟩

theorem Holds.lookup? (index : Nat) : interner.lookup? index = strings[index]? := by
  unfold Interner.lookup?
  rcases hholds.entry? index with ⟨hentry, hstring⟩ | ⟨entry, text, hentry, hstring, hmarks⟩
  · rw [hentry, hstring]
    rfl
  · obtain ⟨block, hblock, -, hextract, -⟩ := hmarks.extract
    rw [hentry, hstring]
    simp only [Option.bind_eq_bind, Option.bind_some, hblock, hextract]
    exact dif_pos text.isValidUTF8

theorem Holds.hash_eq (index : Nat) :
    interner.entries[index]?.map (·.hash) = (strings[index]?).map fun text => Text.hash (utf8 text) := by
  rcases hholds.entry? index with ⟨hentry, hstring⟩ | ⟨entry, text, hentry, hstring, hmarks⟩
  · rw [hentry, hstring]
    rfl
  · rw [hentry, hstring, Option.map_some, Option.map_some, hmarks.hash]

/-- The search for a string stops at an empty slot or at the number of the string, whatever the hashes are. -/
theorem Holds.stopsAt_iff (position : Nat) : interner.stopsAt text (Text.hash (utf8 text)) position = true ↔
      interner.slot position = none ∨ ∃ index, interner.slot position = some index ∧ strings[index]? = some text := by
  unfold stopsAt
  cases hslot : interner.slot position with
  | none => simp
  | some index =>
    simp only [hholds.lookup?, hholds.hash_eq, Bool.and_eq_true, beq_iff_eq, reduceCtorEq, Option.some.injEq, exists_eq_left',
      false_or, and_iff_right_iff_imp]
    intro hstring
    rw [hstring]
    rfl

theorem Holds.room : (strings.map fun text => Text.hash (utf8 text)).length < interner.slots.size := by
  have hsparse := hholds.sparse
  have hpair := hholds.pair
  rw [length_map]
  omega

theorem Holds.exists_stop (text : String) : ∃ position, find? interner.slots.size (Text.hash (utf8 text))
      (interner.stopsAt text (Text.hash (utf8 text))) = some position := by
  obtain ⟨position, hposition, hempty⟩ := hholds.indexed.exists_empty hholds.room
  exact exists_find? ⟨position, hposition, (hholds.stopsAt_iff position).2 (.inl hempty)⟩

theorem Holds.idxOf?_eq_some_iff : strings.idxOf? text = some index ↔ strings[index]? = some text := by
  rw [List.idxOf?_eq_some_iff, List.getElem?_eq_some_iff]
  constructor
  · rintro ⟨hlt, hstring, -⟩
    exact ⟨hlt, hstring⟩
  · rintro ⟨hlt, hstring⟩
    refine ⟨hlt, hstring, fun other hother hsame => ?_⟩
    have := (Nodup.getElem_inj_iff hholds.nodup).1 (hsame.trans hstring.symm)
    omega

theorem Holds.get? (text : String) : interner.get? text = strings.idxOf? text := by
  rw [Interner.get?, masked?_eq hholds.power]
  by_cases htext : text ∈ strings
  · obtain ⟨index, hindex, hstring⟩ := mem_iff_getElem.1 htext
    have hstring? : strings[index]? = some text := by rw [getElem?_eq_getElem hindex, hstring]
    have hnumber : ∀ other, strings[other]? = some text ↔ other = index := by
      intro other
      constructor
      · intro hother
        obtain ⟨hlt, hother⟩ := List.getElem?_eq_some_iff.1 hother
        exact (Nodup.getElem_inj_iff hholds.nodup).1 (hother.trans hstring.symm)
      · rintro rfl
        exact hstring?
    obtain ⟨position, hposition, hslot⟩ := hholds.indexed.present index (by rwa [length_map])
    have hfound := hholds.indexed.sound position hposition index hslot
    have hhash : (strings.map fun text => Text.hash (utf8 text)).getD index 0 = Text.hash (utf8 text) := by
      rw [getD_eq_getElem?_getD, getElem?_map, hstring?]
      rfl
    have hstops : stopsFor (fun position => interner.slots.getD position none) index =
        interner.stopsAt text (Text.hash (utf8 text)) := by
      funext position
      rw [Bool.eq_iff_iff, stopsFor_iff, hholds.stopsAt_iff]
      simp only [hnumber]
      simp [slot]
    simp only [hhash, hstops] at hfound
    simp only [hfound, hholds.idxOf?_eq_some_iff.2 hstring?, Option.bind_eq_bind, Option.bind_some]
    exact hslot
  · obtain ⟨position, hfound⟩ := hholds.exists_stop text
    simp only [hfound, idxOf?_eq_none_iff.2 htext, Option.bind_eq_bind, Option.bind_some]
    rcases (hholds.stopsAt_iff position).1 (stop_of_find? hfound) with hempty | ⟨index, -, hstring⟩
    · exact hempty
    · exact absurd (mem_of_getElem? hstring) htext

/-! ### One more string -/

theorem Holds.map_hash_entries :
    (interner.entries.map (·.hash)).toList = strings.map fun text => Text.hash (utf8 text) := by
  apply ext_getElem?
  intro index
  rw [Array.getElem?_toList, Array.getElem?_map, hholds.hash_eq, getElem?_map]

/-- A table that is doubled when it is crowded has room for one more. -/
theorem Holds.roomy : Holds (if interner.crowded then interner.grow else interner) strings ∧
      (strings.length + 1) * 4 ≤ (if interner.crowded then interner.grow else interner).slots.size * 3 := by
  have hsparse := hholds.sparse
  have hpair := hholds.pair
  have hcrowded : interner.crowded = true ↔ interner.slots.size * 3 < (strings.length + 1) * 4 := by
    simp [crowded, hholds.stored.size]
  split
  · have hroom : (strings.map fun text => Text.hash (utf8 text)).length ≤ 2 * interner.slots.size := by
      rw [length_map]
      omega
    have hpower : (2 * interner.slots.size).isPowerOfTwo := by
      rw [Nat.mul_comm]
      exact Nat.isPowerOfTwo_mul_two_of_isPowerOfTwo hholds.power
    obtain ⟨hindexed, hsize⟩ := indexed_fillSlots hroom hpower
    have hslots : interner.grow.slots = fillSlots (2 * interner.slots.size) (strings.map fun text => Text.hash (utf8 text)) := by
      rw [grow, hholds.map_hash_entries]
    rw [← hslots] at hindexed hsize
    refine ⟨⟨hholds.nodup, hindexed, hholds.stored, ?_, ?_, ?_⟩, ?_⟩
    · rwa [hsize]
    all_goals omega
  · rename_i hnot
    rw [hcrowded] at hnot
    exact ⟨hholds, by omega⟩

theorem Holds.insert (hnew : text ∉ strings) (hfits : text.utf8ByteSize ≤ maxLength) :
    Holds (interner.insert text) (strings ++ [text]) := by
  obtain ⟨hroomy, hroom⟩ := hholds.roomy
  unfold Interner.insert
  generalize (if interner.crowded then interner.grow else interner) = roomy at hroomy hroom ⊢
  have hslots : (roomy.store text (hash (utf8 text))).slots = roomy.slots := rfl
  obtain ⟨hindexed, hsize⟩ := hroomy.indexed.fillSlot hroomy.room hroomy.power (Text.hash (utf8 text))
  rw [length_map, ← hroomy.stored.size] at hindexed hsize
  simp only [hslots]
  refine ⟨?_, ?_, hroomy.stored.store hfits, ?_, ?_, ?_⟩
  · refine nodup_append.2 ⟨hholds.nodup, nodup_singleton text, ?_⟩
    rintro other hother _ htext rfl
    rw [mem_singleton.1 htext] at hother
    exact hnew hother
  · rw [map_append, map_singleton]
    exact hindexed
  · rw [hsize]
    exact hroomy.power
  · rw [hsize, length_append, length_singleton]
    exact hroom
  · rw [hsize]
    exact hroomy.pair

end

theorem two_le_slotCount (capacity : Nat) : 2 ≤ slotCount capacity := by
  have hpositive := Nat.two_pow_pos (max capacity 2 - 1).log2
  rw [slotCount, Nat.shiftLeft_succ, Nat.one_shiftLeft]
  omega

theorem holds_withCapacity (capacity : Nat) : Holds (withCapacity capacity) [""] := by
  have hpair := two_le_slotCount capacity
  have hroom : ([] : List UInt32).length < (Array.replicate (slotCount capacity) (none : Option Nat)).size := by
    rw [Array.size_replicate, length_nil]
    omega
  have hstored : Stored #[] #[] [] := ⟨rfl, by simp, by simp, by simp⟩
  have hpower : (slotCount capacity).isPowerOfTwo := ⟨_, by rw [slotCount, Nat.one_shiftLeft]⟩
  obtain ⟨hindexed, hsize⟩ :=
    (indexed_empty (slotCount capacity)).fillSlot hroom (by rwa [Array.size_replicate]) (hash [])
  have hslots : (withCapacity capacity).slots.size = slotCount capacity := hsize.trans Array.size_replicate
  refine ⟨nodup_singleton _, hindexed, @Stored.store [] "" ⟨#[], #[], _⟩ hstored (by decide), ?_, ?_, ?_⟩
  · rwa [hslots]
  · rw [hslots, length_singleton]
    omega
  · rw [hslots]
    exact hpair

/-! ### Any history -/

/-- What the interner is after a string has been brought to it, taken or not. -/
def bring (interner : Interner) (text : String) : Interner :=
  match interner.intern text with
  | .ok (_, next) => next
  | .error _ => interner

def bringAll (interner : Interner) (texts : List String) : Interner := texts.foldl bring interner

/-- The strings that are taken when these are brought: those that are not too long, each where it comes first, behind
the empty string. -/
def taken (texts : List String) : List String := ("" :: texts.filter (·.utf8ByteSize ≤ maxLength)).eraseDups

variable {texts : List String}

theorem mem_taken_iff : text ∈ taken texts ↔ text = "" ∨ text ∈ texts ∧ text.utf8ByteSize ≤ maxLength := by
  simp [taken]

theorem taken_append (front back : List String) :
    taken (front ++ back) = taken front ++ ((back.filter (·.utf8ByteSize ≤ maxLength)).removeAll
      ("" :: front.filter (·.utf8ByteSize ≤ maxLength))).eraseDups := by
  unfold taken
  rw [filter_append, ← cons_append, eraseDups_append]

theorem taken_of_long (hlong : maxLength < text.utf8ByteSize) : taken (texts ++ [text]) = taken texts := by
  rw [taken_append, filter_cons_of_neg (by simpa using hlong)]
  exact append_nil _

theorem taken_of_mem (hmem : text ∈ taken texts) : taken (texts ++ [text]) = taken texts := by
  have hthere : text ∈ "" :: texts.filter (·.utf8ByteSize ≤ maxLength) := mem_eraseDups.1 hmem
  have hnone : ([text].filter (·.utf8ByteSize ≤ maxLength)).removeAll ("" :: texts.filter (·.utf8ByteSize ≤ maxLength)) = [] := by
    refine eq_nil_iff_forall_not_mem.2 fun other hother => ?_
    obtain ⟨hother, hmissing⟩ := mem_filter.1 hother
    obtain rfl := mem_singleton.1 (mem_filter.1 hother).1
    rw [elem_eq_true_of_mem hthere] at hmissing
    cases hmissing
  rw [taken_append, hnone]
  exact append_nil _

theorem taken_of_new (hnew : text ∉ taken texts) (hfits : text.utf8ByteSize ≤ maxLength) :
    taken (texts ++ [text]) = taken texts ++ [text] := by
  have hmissing : text ∉ "" :: texts.filter (·.utf8ByteSize ≤ maxLength) := mt mem_eraseDups.2 hnew
  rw [taken_append, filter_cons_of_pos (by simpa using hfits), removeAll,
    filter_cons_of_pos (by rw [Bool.eq_false_iff.2 (mt elem_iff.1 hmissing)]; rfl)]
  rfl

section

variable (hholds : Holds interner strings)

include hholds

theorem Holds.intern_of_mem (hindex : strings.idxOf? text = some index) :
    interner.intern text = .ok (index, interner) := by
  rw [intern, hholds.get?, hindex]

theorem Holds.intern_of_long (hnew : text ∉ strings) (hlong : maxLength < text.utf8ByteSize) :
    interner.intern text = .error (.oversized text.utf8ByteSize) := by
  rw [intern, hholds.get?, idxOf?_eq_none_iff.2 hnew]
  exact if_pos hlong

theorem Holds.intern_of_new (hnew : text ∉ strings) (hfits : text.utf8ByteSize ≤ maxLength)
    (hcount : strings.length < countBound) : interner.intern text = .ok (strings.length, interner.insert text) := by
  rw [intern, hholds.get?, idxOf?_eq_none_iff.2 hnew, hholds.stored.size]
  exact (if_neg (by omega)).trans (if_neg (by omega))

/-- A call that succeeds gives the number of a string that is there, or takes a string under the next number. -/
theorem Holds.intern_cases {next : Interner} (hok : interner.intern text = .ok (index, next)) :
    (strings[index]? = some text ∧ next = interner) ∨
      (text ∉ strings ∧ text.utf8ByteSize ≤ maxLength ∧ index = strings.length ∧ next = interner.insert text) := by
  unfold intern at hok
  rw [hholds.get?] at hok
  cases hnumber : strings.idxOf? text with
  | some number =>
    rw [hnumber] at hok
    obtain ⟨rfl, rfl⟩ := Prod.mk.inj (Except.ok.inj hok)
    obtain ⟨hlt, hstring, -⟩ := List.idxOf?_eq_some_iff.1 hnumber
    exact .inl ⟨List.getElem?_eq_some_iff.2 ⟨hlt, hstring⟩, rfl⟩
  | none =>
    simp only [hnumber, hholds.stored.size] at hok
    split at hok
    · cases hok
    · split at hok
      · cases hok
      · obtain ⟨rfl, rfl⟩ := Prod.mk.inj (Except.ok.inj hok)
        exact .inr ⟨idxOf?_eq_none_iff.1 hnumber, by omega, rfl, rfl⟩

omit hholds in
/-- What one call keeps. -/
theorem Holds.bring (hholds : Holds interner (taken texts)) (hcount : (taken (texts ++ [text])).length ≤ countBound) :
    Holds (interner.bring text) (taken (texts ++ [text])) := by
  unfold Interner.bring
  by_cases hthere : text ∈ taken texts
  · obtain ⟨index, hindex⟩ := Option.isSome_iff_exists.1 (isSome_idxOf?.2 hthere)
    rw [taken_of_mem hthere, hholds.intern_of_mem hindex]
    exact hholds
  · by_cases hlong : maxLength < text.utf8ByteSize
    · rw [taken_of_long hlong, hholds.intern_of_long hthere hlong]
      exact hholds
    · rw [taken_of_new hthere (by omega), length_append, length_singleton] at hcount
      rw [taken_of_new hthere (by omega), hholds.intern_of_new hthere (by omega) (by omega)]
      exact hholds.insert hthere (by omega)

omit hholds in
/-- What any number of calls keep. -/
theorem holds_bringAll (capacity : Nat) (hcount : (taken texts).length ≤ countBound) :
    Holds ((withCapacity capacity).bringAll texts) (taken texts) := by
  induction texts using reverseRecOn with
  | nil => exact holds_withCapacity capacity
  | append_singleton front text ih =>
    have hfront : (taken front).length ≤ (taken (front ++ [text])).length := by
      rw [taken_append, length_append]
      omega
    have hholds := (ih (by omega)).bring hcount
    simpa [bringAll] using hholds

/-! ### The numbering -/

/-- The entries and the slots of an interner, apart from what the strings are: the number of slots is a power of two, at
most three quarters of them are used, each number stands in one slot, and every search ends. -/
structure Compact (interner : Interner) : Prop where
  power : interner.slots.size.isPowerOfTwo
  sparse : interner.entries.size * 4 ≤ interner.slots.size * 3
  once : ∀ index < interner.entries.size, ∃! position, position < interner.slots.size ∧ interner.slot position = some index
  inside : ∀ position index, interner.slot position = some index → index < interner.entries.size
  search : ∀ text, ∃ position, masked? interner.slots.size (Text.hash (utf8 text))
    (interner.stopsAt text (Text.hash (utf8 text))) = some position
  vacancy : ∀ hash, ∃ position, masked? interner.slots.size hash (fun position => (interner.slot position).isNone) =
    some position

theorem Holds.compact : Compact interner where
  power := hholds.power
  sparse := by
    rw [hholds.stored.size]
    exact hholds.sparse
  once := by
    intro index hindex
    rw [hholds.stored.size] at hindex
    obtain ⟨position, hposition, hslot⟩ := hholds.indexed.present index (by rwa [length_map])
    refine ⟨position, ⟨hposition, hslot⟩, fun other hother => ?_⟩
    exact hholds.indexed.sound.unique hother.1 hposition hother.2 hslot
  inside := by
    intro position index hslot
    have hindex := hholds.indexed.inside position index hslot
    rwa [length_map, ← hholds.stored.size] at hindex
  search text := by
    rw [masked?_eq hholds.power]
    exact hholds.exists_stop text
  vacancy hash := by
    rw [masked?_eq hholds.power]
    exact hholds.indexed.exists_vacant hholds.room hash

/-- The bytes of the strings: each lies in a block of at most 65536 bytes with a zero behind it, and no two of these
ranges have a byte in common. -/
structure Terminated (interner : Interner) (strings : List String) : Prop where
  bytes : ∀ (index : Nat) (text : String), strings[index]? = some text → ∃ entry block,
    interner.entries[index]? = some entry ∧ interner.blocks[entry.block]? = some block ∧
    entry.offset + entry.length + 1 ≤ block.size ∧
    block.extract entry.offset (entry.offset + entry.length) = text.toUTF8 ∧
    block.data[entry.offset + entry.length]? = some 0
  disjoint : ∀ (first second : Nat) (entry other : Entry), first ≠ second → interner.entries[first]? = some entry →
    interner.entries[second]? = some other → entry.block = other.block →
    entry.offset + entry.length < other.offset ∨ other.offset + other.length < entry.offset
  bounded : ∀ (position : Nat) (block : ByteArray), interner.blocks[position]? = some block → block.size ≤ 65536

theorem Holds.terminated : Terminated interner strings where
  bytes := by
    intro index text htext
    obtain ⟨hindex, -⟩ := List.getElem?_eq_some_iff.1 htext
    rw [← hholds.stored.size] at hindex
    have hentry := Array.getElem?_eq_getElem hindex
    obtain ⟨block, hblock⟩ := (hholds.stored.marks index _ text hentry htext).extract
    exact ⟨_, block, hentry, hblock⟩
  disjoint := by
    intro first second entry other hne hentry hother hblock
    rcases Nat.lt_or_gt_of_ne hne with hlt | hlt
    · rcases hholds.stored.apart first second entry other hlt hentry hother with hbefore | ⟨-, hbefore⟩
      · omega
      · exact .inl hbefore
    · rcases hholds.stored.apart second first other entry hlt hother hentry with hbefore | ⟨-, hbefore⟩
      · omega
      · exact .inr hbefore
  bounded := hholds.stored.bounded

end

/-- After any history with no more than `countBound` strings taken: the numbers lead to the strings in the order in
which they first came, and always will; a call gives the number of a string that has been taken and changes nothing, or
the next number to a new one; asking for a number gives the same; two strings that ever get one number are equal; and
exactly the strings of more than 65535 bytes are refused as too long, which changes nothing. -/
theorem numbering (capacity : Nat) (texts : List String) (hcount : (taken texts).length ≤ countBound) :
    let interner := (withCapacity capacity).bringAll texts
    (∀ index, interner.lookup? index = (taken texts)[index]?) ∧
    (∀ more, (taken (texts ++ more)).length ≤ countBound → ∀ index < (taken texts).length,
      (interner.bringAll more).lookup? index = (taken texts)[index]?) ∧
    (∀ text index, interner.intern text = .ok (index, interner) ↔ (taken texts)[index]? = some text) ∧
    (∀ text, text ∉ taken texts → text.utf8ByteSize ≤ 65535 → (taken texts).length < countBound →
      interner.intern text = .ok ((taken texts).length, interner.bring text)) ∧
    (∀ text index, interner.get? text = some index ↔ (taken texts)[index]? = some text) ∧
    (∀ first more second index next last, (taken (texts ++ first :: more)).length ≤ countBound →
      interner.intern first = .ok (index, next) → (next.bringAll more).intern second = .ok (index, last) → first = second) ∧
    (∀ text, (∃ length, interner.intern text = .error (.oversized length)) ↔ 65535 < text.utf8ByteSize) ∧
    (∀ text, 65535 < text.utf8ByteSize → interner.bring text = interner) ∧
    Compact interner ∧ Terminated interner (taken texts) := by
  have hholds := holds_bringAll capacity hcount
  have hbringAll (more : List String) : ((withCapacity capacity).bringAll texts).bringAll more =
      (withCapacity capacity).bringAll (texts ++ more) := (List.foldl_append ..).symm
  have hlong {text : String} (htext : 65535 < text.utf8ByteSize) : text ∉ taken texts := by
    intro hmem
    rcases mem_taken_iff.1 hmem with rfl | ⟨-, hfits⟩
    · exact absurd htext (by decide)
    · have : maxLength = 65535 := rfl
      omega
  refine ⟨hholds.lookup?, ?_, ?_, ?_, ?_, ?_, ?_, ?_, hholds.compact, hholds.terminated⟩
  · intro more hmore index hindex
    rw [hbringAll, (holds_bringAll capacity hmore).lookup?, taken_append, List.getElem?_append_left hindex]
  · intro text index
    constructor
    · intro hok
      rcases hholds.intern_cases hok with ⟨hstring, -⟩ | ⟨hnew, hfits, -, hnext⟩
      · exact hstring
      · have hsize := (hholds.insert hnew hfits).stored.size
        rw [← hnext, hholds.stored.size, List.length_append, List.length_singleton] at hsize
        omega
    · intro hstring
      exact hholds.intern_of_mem (hholds.idxOf?_eq_some_iff.2 hstring)
  · intro text hnew hfits hroom
    have hintern := hholds.intern_of_new hnew hfits hroom
    rw [hintern, bring, hintern]
  · intro text index
    rw [hholds.get?]
    exact hholds.idxOf?_eq_some_iff
  · intro first more second index next last hmore hfirst hsecond
    have hnext : next = ((withCapacity capacity).bringAll texts).bring first := by rw [bring, hfirst]
    have hlater := holds_bringAll capacity hmore
    rw [← hbringAll, bringAll, List.foldl_cons, ← hnext] at hlater
    -- What the first string got is its number in the longer list.
    have hindex : (taken (texts ++ first :: more))[index]? = some first := by
      rw [← List.singleton_append, ← List.append_assoc, taken_append]
      rcases hholds.intern_cases hfirst with ⟨hstring, -⟩ | ⟨hnew, hfits, rfl, -⟩
      · rw [taken_append, List.append_assoc, List.getElem?_append_left (List.getElem?_eq_some_iff.1 hstring).1, hstring]
      · rw [taken_of_new hnew hfits, List.append_assoc, List.getElem?_append_right (Nat.le_refl _), Nat.sub_self]
        rfl
    rcases hlater.intern_cases hsecond with ⟨hstring, -⟩ | ⟨-, -, hlength, -⟩
    · exact Option.some.inj (hindex.symm.trans hstring)
    · have := (List.getElem?_eq_some_iff.1 hindex).1
      omega
  · intro text
    constructor
    · rintro ⟨length, herror⟩
      unfold intern at herror
      split at herror
      · cases herror
      · split at herror
        · assumption
        · split at herror <;> cases herror
    · intro htext
      exact ⟨_, hholds.intern_of_long (hlong htext) htext⟩
  · intro text htext
    rw [bring, hholds.intern_of_long (hlong htext) htext]

/-- Two words with one hash, in a table that starts with two slots. -/
theorem numbering_collision :
    let texts := ["costarring", "liquid", "costarring"]
    let interner := (withCapacity 0).bringAll texts
    (taken texts).length ≤ countBound ∧ Text.hash (Text.utf8 "costarring") = Text.hash (Text.utf8 "liquid") ∧
      interner.lookup? 1 = some "costarring" ∧ interner.get? "liquid" = some 2 ∧
      interner.intern "costarring" = .ok (1, interner) := by
  have htaken : taken ["costarring", "liquid", "costarring"] = ["", "costarring", "liquid"] := by decide
  have hcount : (taken ["costarring", "liquid", "costarring"]).length ≤ countBound := by
    rw [htaken]
    decide
  obtain ⟨hlookup, -, hintern, -, hget, -⟩ := numbering 0 _ hcount
  refine ⟨hcount, by decide, ?_, ?_, ?_⟩
  · rw [hlookup, htaken]
    rfl
  · rw [hget, htaken]
    rfl
  · rw [hintern, htaken]
    rfl

end NanScript.Interner

import Mathlib.Data.List.Dedup
import NanScript.Proofs.Record.Table

/-!
# Objects are finite maps

Whatever keys are set, in whatever order, an object gives for each key the last value that was set for it. An object that
the roots lead to is not touched by the collections that an allocation may start, so a set that finds no room for a larger
table leaves the map as it was.
-/

namespace NanScript.Record

open Machine Run Value Probe Block

variable {machine : Machine} {header capacity key : Nat} {top table : Block} {content : List UInt8 → Option UInt64}

/-! ### Maps -/

variable {count : Nat} {object : Value} {sets : List (Nat × Value)}

/-- An object that the roots lead to, with a number of entries and room for more, as the map that it stands for. -/
def IsMap (machine : Machine) (header capacity count : Nat) (content : List UInt8 → Option UInt64) : Prop :=
  ∃ top table, Holds machine header capacity top table content ∧
    machine.heap.Led machine.roots [header, table.address] header ∧
    used capacity (keysOf machine.data table) = count ∧ count * 4 ≤ capacity * 3

section

variable (hmap : IsMap machine header capacity count content)

include hmap

theorem IsMap.find (bytes : List UInt8) :
    objectFind header bytes machine = .ok ((content bytes).elim .null mk) machine := by
  obtain ⟨top, table, hholds, -, rfl, hroom⟩ := hmap
  have hpositive := hholds.positive
  exact hholds.find (by omega) bytes

theorem IsMap.room : count * 4 ≤ capacity * 3 := by
  obtain ⟨top, table, -, -, -, hroom⟩ := hmap
  exact hroom

theorem IsMap.count_run : objectCount header machine = .ok count machine := by
  obtain ⟨top, table, hholds, -, rfl, -⟩ := hmap
  simp only [objectCount, bind, EStateM.bind, read_run, hholds.count_toNat]
  rfl

theorem IsMap.capacity_run : objectCapacity header machine = .ok capacity machine := by
  obtain ⟨top, table, hholds, -⟩ := hmap
  simp only [objectCapacity, bind, EStateM.bind, read_run, hholds.capacity_toNat]
  rfl

omit hmap in
theorem Holds.insert_isMap (hholds : Holds machine header capacity top table content)
    (hled : machine.heap.Led machine.roots [header, table.address] header) (hkey : InData machine.data key)
    (hroom : (used capacity (keysOf machine.data table) + 1) * 4 ≤ capacity * 3) (value : UInt64) :
    ∃ after, objectInsert header key value machine = .ok () { machine with heap := after } ∧
      IsMap { machine with heap := after } header capacity
        (used capacity (keysOf machine.data table) + if content (keyText machine.data key) = none then 1 else 0)
        (Function.update content (keyText machine.data key) (some value)) := by
  obtain ⟨after, newTop, newTable, hrun, hafter, haddress, hused, hframe⟩ := hholds.insert hkey (by omega) value
  refine ⟨after, hrun, newTop, newTable, hafter, ?_, hused, ?_⟩
  · refine hled.keep hholds.sound fun block hblock hown => ?_
    rw [haddress]
    simp only [List.mem_cons, List.not_mem_nil, or_false, not_or] at hown ⊢
    exact ⟨hframe block hblock.mem hown.1 hown.2, hown⟩
  · split <;> omega

/-- A set doubles the table first if it is nearly full, whether or not the key is new; it fails only if there is no room for
the doubled table, and leaves the map as it was then. -/
theorem IsMap.set (hheader : objectHeader? object = some header) (hkey : InData machine.data key) (value : Value) :
    (∃ after, objectSet object (some key) value machine = .ok value { machine with heap := after } ∧
      IsMap { machine with heap := after } header (if capacity * 3 < (count + 1) * 4 then capacity * 2 else capacity)
        (count + if content (keyText machine.data key) = none then 1 else 0)
        (Function.update content (keyText machine.data key) (some value.bits))) ∨
    capacity * 3 < (count + 1) * 4 ∧ ∃ after,
      objectSet object (some key) value machine = .error (.outOfMemory (capacity * 32)) { machine with heap := after } ∧
      IsMap { machine with heap := after } header capacity count content := by
  have hcount := hmap.count_run
  have hcapacity := hmap.capacity_run
  obtain ⟨top, table, hholds, hled, rfl, hroom⟩ := hmap
  have hset : objectSet object (some key) value machine =
      (do
        if capacity * 3 < (used capacity (keysOf machine.data table) + 1) * 4 then objectGrow header
        objectInsert header key value.bits
        return value : Run Value) machine := by
    simp only [objectSet, hheader, bind, EStateM.bind, hcapacity, hcount]
  rw [hset]
  by_cases hgrow : capacity * 3 < (used capacity (keysOf machine.data table) + 1) * 4
  · simp only [if_pos hgrow]
    rcases hholds.grow hled with ⟨middle, midTop, midTable, hrun, hmiddle, hopen⟩ | ⟨after, hrun, hafter, hopen⟩
    · left
      have hused : used (capacity * 2) (keysOf machine.data midTable) = used capacity (keysOf machine.data table) :=
        hmiddle.stores.maps.used_eq_used hholds.stores.maps
      have hpositive := hholds.positive
      obtain ⟨after, hinsert, hafter⟩ := hmiddle.insert_isMap hopen hkey (by rw [hused]; omega) value.bits
      rw [hused] at hafter
      refine ⟨after, ?_, hafter⟩
      rw [bind_of_ok hrun, bind_of_ok hinsert]
      rfl
    · right
      exact ⟨hgrow, after, bind_of_error hrun, top, table, hafter, hopen, rfl, hroom⟩
  · left
    simp only [if_neg hgrow]
    obtain ⟨after, hinsert, hafter⟩ := hholds.insert_isMap hled hkey (by omega) value.bits
    refine ⟨after, ?_, hafter⟩
    rw [bind_of_ok hinsert]
    rfl

end

/-! ### New objects -/

theorem objectHeader?_ofAddress (hnonzero : header ≠ 0) (hbound : header < Heap.addressBound) :
    objectHeader? (ofAddress .object header) = some header := by
  have hkind := kind_eq_object.2 ⟨tag?_ofAddress .object header, payload_ofAddress .object header⟩
  rw [objectHeader?, hkind, Nat.mod_eq_of_lt hbound]
  exact if_neg hnonzero

/-- The header of a new object is led to a table of zeros. Nothing but the result knows it while the table is allocated, so a
collection may take it, and the table may even get its place. -/
theorem objectNew_cases {after : Machine} (harises : machine.heap.Arises) (hnew : objectNew machine = .ok object after) :
    ∃ (heap : Heap) (header table : Nat), heap.Arises ∧ objectHeader? object = some header ∧
      { address := table, size := 128 } ∈ heap.blocks ∧
      (∀ block ∈ heap.blocks, block.address = header → block.size = headerSize →
        block = { address := header, size := headerSize }) ∧
      after.heap = (heap.write header itemsWord table.toUInt64).write header capacityWord initialCapacity.toUInt64 := by
  have hheader : Heap.rounded headerSize = some headerSize := by decide
  have hentries : Heap.rounded (initialCapacity * 16).toUInt64 = some 128 := by decide
  obtain ⟨first, hfirst, ⟨header, hplace, hallocate⟩ | hallocate⟩ := allocate_cases harises hheader (by decide)
  · rw [objectNew, bind_of_ok hallocate] at hnew
    have hmiddle := hfirst.arises.insert hplace
    have hmem : { address := header, size := headerSize } ∈ (first.insert header headerSize).blocks := Heap.mem_insert.2 (.inr rfl)
    have hplaced := hmiddle.sound.placed _ hmem
    obtain ⟨second, hsecond, ⟨table, htable, hallocate⟩ | hallocate⟩ :=
      allocate_cases (show ({ machine with heap := first.insert header headerSize } : Machine).heap.Arises from hmiddle) hentries
        (by decide)
    · rw [allocateEntries, bind_of_ok hallocate] at hnew
      injection hnew with hobject hafter
      rw [← hobject, ← hafter]
      refine ⟨second.insert table 128, header, table, hsecond.arises.insert htable,
        objectHeader?_ofAddress hplaced.nonzero hplaced.address_lt, Heap.mem_insert.2 (.inr rfl),
        fun block hblock haddress hsize => ?_, rfl⟩
      rcases Heap.mem_insert.1 hblock with hkept | rfl
      · exact hmiddle.sound.eq_of_address hmem (hsecond.mem block hkept) haddress
      · exact absurd (show (128 : UInt64) = headerSize from hsize) (by decide)
    · rw [allocateEntries, bind_of_error hallocate] at hnew
      cases hnew
  · rw [objectNew, bind_of_error hallocate] at hnew
    cases hnew

/-- The object that was made in `fresh` is still there in `start` as it was, and the roots lead to it. -/
structure Kept (fresh start : Machine) (header : Nat) : Prop where
  arises : start.heap.Arises
  top : ∃ block ∈ fresh.heap.blocks, block.address = header ∧ block.size = headerSize ∧ start.heap.Reached start.roots block
  table : ∀ block ∈ fresh.heap.blocks, block.address = (fresh.heap.read header itemsWord).toNat → block ∈ start.heap.blocks

theorem isMap_objectNew {fresh start : Machine} (harises : machine.heap.Arises) (hnew : objectNew machine = .ok object fresh)
    (hheader : objectHeader? object = some header) (hkept : Kept fresh start header) :
    IsMap start header initialCapacity 0 fun _ => none := by
  obtain ⟨heap, address, table, hafter, haddress, htable, hunique, hfresh⟩ := objectNew_cases harises hnew
  obtain rfl : address = header := Option.some.inj (haddress.symm.trans hheader)
  obtain ⟨block, hblock, hsame, hsize, hreached⟩ := hkept.top
  have htop : { address, size := headerSize } ∈ heap.blocks := by
    rw [hfresh] at hblock
    obtain ⟨written, hwritten, hold, holdSize⟩ := Heap.exists_address_of_mem_write hblock
    obtain ⟨old, hmem, hfirst, hfirstSize⟩ := Heap.exists_address_of_mem_write hwritten
    rwa [← hunique old hmem (hfirst.trans (hold.trans hsame)) (hfirstSize.trans (holdSize.trans hsize))]
  have hapart : table ≠ address := by
    rintro rfl
    have hsizes : (128 : UInt64) = headerSize := congrArg Block.size (hafter.sound.eq_of_address htop htable rfl)
    exact absurd hsizes (by decide)
  have hwords : ({ address, size := headerSize } : Block).wordCount = 4 := by
    show headerSize.toNat / 8 = 4
    decide
  have hzero := read_mk table 128
  have hfirst := hafter.write address itemsWord table.toUInt64
  have hsecond := hfirst.write address capacityWord initialCapacity.toUInt64
  have hmem := hfirst.sound.mem_write_self (hafter.sound.mem_write_self htop itemsWord table.toUInt64) capacityWord
    initialCapacity.toUInt64
  rw [address_write] at hmem
  have hempty := hfirst.sound.mem_write_of_ne (hafter.sound.mem_write_of_ne htable hapart itemsWord table.toUInt64)
    hapart capacityWord initialCapacity.toUInt64
  rw [hfresh] at hblock
  obtain rfl := hsecond.sound.eq_of_address hmem hblock (by simp [hsame])
  -- The words of the header.
  have hitems : (((({ address, size := headerSize } : Block).write itemsWord table.toUInt64).write capacityWord
      initialCapacity.toUInt64).read itemsWord) = table.toUInt64 := by
    rw [read_write_of_ne (by simp [hwords]; decide) _ (by decide), read_write_self (by rw [hwords]; decide)]
  have hstart : { address := table, size := 128 } ∈ start.heap.blocks := by
    have hbound := (hafter.sound.placed _ htable).address_lt
    have hread := hsecond.sound.read_eq hmem itemsWord
    rw [hsame] at hread
    refine hkept.table _ (hfresh ▸ hempty) ?_
    rw [hfresh, hread, hitems, toNat_toUInt64 hbound]
  have hused : used initialCapacity (keysOf start.data { address := table, size := 128 }) = 0 := by
    rw [keysOf_zero hzero, used_empty]
  have hled := hreached.led hkept.arises.sound hstart hzero
  rw [hsame] at hled
  refine ⟨_, { address := table, size := 128 }, {
    arises := hkept.arises
    top_mem := hreached.mem
    address := hsame
    top_size := by rw [size_write, size_write]
    items_word := hitems
    capacity_word := read_write_self (by simp [hwords]; decide) _
    count_word := by
      rw [read_write_of_ne (by simp [hwords]; decide) _ (by decide), read_write_of_ne (by rw [hwords]; decide) _ (by decide),
        read_mk, hused]
      rfl
    table_mem := hstart
    apart := hapart
    size := by
      show (128 : UInt64).toNat / 8 = 2 * initialCapacity
      decide
    positive := by decide
    bound := by decide
    stores := stores_zero hzero }, hled, hused, by decide⟩

/-! ### Histories -/

/-- Set keys one after the other, whether or not a set succeeds. The sets that did are given back. -/
def setAll (object : Value) : List (Nat × Value) → Machine → Machine × List (Nat × Value)
  | [], machine => (machine, [])
  | (key, value) :: rest, machine =>
    match objectSet object (some key) value machine with
    | .ok _ after => ((setAll object rest after).1, (key, value) :: (setAll object rest after).2)
    | .error _ after => setAll object rest after

/-- The value of the last set whose key has these bytes. -/
def lastSet? (data : Array UInt8) (sets : List (Nat × Value)) (bytes : List UInt8) : Option Value :=
  (sets.reverse.find? fun entry => keyText data entry.1 == bytes).map (·.2)

/-- An earlier set of a key counts if there is no later one. -/
theorem map_lastSet?_cons (data : Array UInt8) (key : Nat) (value : Value) (rest : List (Nat × Value)) (bytes : List UInt8) :
    ((lastSet? data ((key, value) :: rest) bytes).map bits).or (content bytes) =
      ((lastSet? data rest bytes).map bits).or (Function.update content (keyText data key) (some value.bits) bytes) := by
  rw [lastSet?, List.reverse_cons, List.find?_append, lastSet?]
  cases rest.reverse.find? fun entry => keyText data entry.1 == bytes with
  | some entry => rfl
  | none =>
    by_cases hkey : keyText data key = bytes
    · simp [hkey]
    · simp [hkey, Function.update_of_ne (Ne.symm hkey)]

/-- How large a table may be for its entries. -/
structure Sized (capacity count : Nat) : Prop where
  doubled : ∃ times, capacity = initialCapacity <<< times
  tight : initialCapacity < capacity → capacity * 3 < 8 * (count + 1)

theorem Sized.set {more : Nat} (hsized : Sized capacity count) (hmore : count ≤ more) :
    Sized (if capacity * 3 < (count + 1) * 4 then capacity * 2 else capacity) more := by
  obtain ⟨⟨times, rfl⟩, htight⟩ := hsized
  split
  · refine ⟨⟨times + 1, ?_⟩, by omega⟩
    rw [Nat.shiftLeft_succ]
    omega
  · exact ⟨⟨times, rfl⟩, fun hlarge => by have := htight hlarge; omega⟩

section

variable (hmap : IsMap machine header capacity count content)

include hmap

/-- After any sets that succeed the object has the last value for each key. -/
theorem IsMap.setAll (hheader : objectHeader? object = some header) (hsized : Sized capacity count) (sets : List (Nat × Value))
    (hkeys : ∀ entry ∈ sets, InData machine.data entry.1) :
    ∃ after room entries, (setAll object sets machine).1 = { machine with heap := after } ∧ Sized room entries ∧
      IsMap { machine with heap := after } header room entries fun bytes =>
        ((lastSet? machine.data (Record.setAll object sets machine).2 bytes).map bits).or (content bytes) := by
  induction sets generalizing machine capacity count content with
  | nil => exact ⟨machine.heap, capacity, count, rfl, hsized, hmap⟩
  | cons entry rest ih =>
    obtain ⟨key, value⟩ := entry
    have hrest : ∀ entry ∈ rest, InData machine.data entry.1 := fun entry hentry => hkeys entry (List.mem_cons_of_mem _ hentry)
    rcases hmap.set hheader (hkeys _ List.mem_cons_self) value with ⟨middle, hset, hmiddle⟩ | ⟨-, middle, hset, hmiddle⟩
    · obtain ⟨after, room, entries, hrun, hroom, hafter⟩ := ih hmiddle (hsized.set (Nat.le_add_right ..)) hrest
      refine ⟨after, room, entries, ?_, hroom, ?_⟩
      · rw [Record.setAll, hset, hrun]
      · rw [Record.setAll, hset]
        simp only [map_lastSet?_cons]
        exact hafter
    · obtain ⟨after, room, entries, hrun, hroom, hafter⟩ := ih hmiddle hsized hrest
      refine ⟨after, room, entries, ?_, hroom, ?_⟩
      · rw [Record.setAll, hset, hrun]
      · rw [Record.setAll, hset]
        exact hafter

theorem IsMap.get (hheader : objectHeader? object = some header) (hkey : InData machine.data key) :
    objectGet object (some key) machine = .ok ((content (keyText machine.data key)).elim .null mk) machine := by
  rw [← hmap.find, ← text_of_inData hkey]
  simp only [objectGet, hheader]
  rfl

theorem IsMap.exists_slot : (∃ slot < capacity, machine.keyAt (machine.heap.read header itemsWord).toNat slot = 0) ∧
      ∀ bytes, ∃ slot < capacity, machine.entrySlot? (machine.heap.read header itemsWord).toNat capacity bytes = some slot := by
  obtain ⟨top, table, hholds, -, rfl, hroom⟩ := hmap
  have hpositive := hholds.positive
  have hfree : used capacity (keysOf machine.data table) < capacity := by omega
  rw [hholds.items_toNat]
  constructor
  · obtain ⟨slot, hslot, hnone⟩ := exists_empty hfree
    exact ⟨slot, hslot, hholds.keyAt_eq_zero.2 hnone⟩
  · intro bytes
    obtain ⟨slot, hslot⟩ := exists_stop hfree (Text.hash bytes) bytes
    exact ⟨slot, find?_lt hpositive hslot, by rw [hholds.entrySlot?_eq, hslot]⟩

end

theorem lastSet?_ne_none {data : Array UInt8} {bytes : List UInt8} :
    lastSet? data sets bytes ≠ none ↔ bytes ∈ sets.map fun entry => keyText data entry.1 := by
  simp [lastSet?]

/-- The number of entries is the number of different keys. -/
theorem IsMap.count_eq
    (hmap : IsMap machine header capacity count fun bytes => (lastSet? machine.data sets bytes).map bits) :
    count = (sets.map fun entry => keyText machine.data entry.1).dedup.length := by
  obtain ⟨top, table, hholds, -, rfl, -⟩ := hmap
  refine hholds.stores.maps.used_eq (List.nodup_dedup _) fun bytes => ?_
  rw [List.mem_dedup, ← lastSet?_ne_none, ne_eq, ne_eq, Option.map_eq_none_iff]

/-- Every text of the program gives the value of its last set. -/
def Gives (object : Value) (sets : List (Nat × Value)) (machine : Machine) : Prop :=
  ∀ key, InData machine.data key →
    objectGet object (some key) machine = .ok ((lastSet? machine.data sets (keyText machine.data key)).getD .null) machine

theorem IsMap.gives
    (hmap : IsMap machine header capacity count fun bytes => (lastSet? machine.data sets bytes).map bits)
    (hheader : objectHeader? object = some header) : Gives object sets machine := by
  intro key hkey
  rw [hmap.get hheader hkey]
  cases lastSet? machine.data sets (keyText machine.data key) <;> rfl

/-- An object is a finite map from texts to values. After any sets on a new object, of which some may fail for want of memory,
every key has the value that the last set of its bytes gave it. The capacity is doubled only by a set that finds the table
nearly full, never gets much larger than the entries ask for, and always leaves an empty slot, so that every search ends. A
set that fails changes nothing. -/
theorem object_is_finite_map {machine fresh start last : Machine} {object : Value} {header : Nat} (harises : machine.heap.Arises)
    (hnew : objectNew machine = .ok object fresh) (hheader : objectHeader? object = some header) (hkept : Kept fresh start header)
    {sets done : List (Nat × Value)} (hkeys : ∀ entry ∈ sets, InData start.data entry.1)
    (hrun : setAll object sets start = (last, done)) :
    ∃ capacity count, Gives object done last ∧
      objectCount header last = .ok count last ∧ count = (done.map fun entry => keyText start.data entry.1).dedup.length ∧
      objectCapacity header last = .ok capacity last ∧ Sized capacity count ∧ count * 4 ≤ capacity * 3 ∧
      (∃ slot < capacity, last.keyAt (last.heap.read header itemsWord).toNat slot = 0) ∧
      (∀ bytes, ∃ slot < capacity, last.entrySlot? (last.heap.read header itemsWord).toNat capacity bytes = some slot) ∧
      ∀ key value, InData start.data key →
        (∃ after, objectSet object (some key) value last = .ok value after ∧
          objectCapacity header after = .ok (if capacity * 3 < (count + 1) * 4 then capacity * 2 else capacity) after) ∨
        capacity * 3 < (count + 1) * 4 ∧ ∃ after, objectSet object (some key) value last = .error (.outOfMemory (capacity * 32)) after ∧
          Gives object done after ∧ objectCount header after = .ok count after ∧ objectCapacity header after = .ok capacity after := by
  have hsized : Sized initialCapacity 0 := ⟨⟨0, rfl⟩, fun hlarge => absurd hlarge (Nat.lt_irrefl _)⟩
  obtain ⟨after, capacity, count, hlast, hfits, hmap⟩ :=
    (isMap_objectNew harises hnew hheader hkept).setAll hheader hsized sets hkeys
  rw [hrun] at hlast hmap
  simp only [Option.or_none] at hlast hmap
  subst hlast
  obtain ⟨hempty, hsearch⟩ := hmap.exists_slot
  refine ⟨capacity, count, hmap.gives hheader, hmap.count_run, hmap.count_eq, hmap.capacity_run, hfits, hmap.room, hempty, hsearch,
    fun key value hkey => ?_⟩
  rcases hmap.set hheader hkey value with ⟨heap, hset, hnext⟩ | ⟨hgrow, heap, hset, hsame⟩
  · exact .inl ⟨_, hset, hnext.capacity_run⟩
  · exact .inr ⟨hgrow, _, hset, hsame.gives hheader, hsame.count_run, hsame.capacity_run⟩

/-- Two of the keys have the same bytes at different addresses. -/
theorem object_is_finite_map_same_bytes :
    let object := Value.ofAddress .object 0x560000000000
    let sets := [(0x800000000000, Value.ofInt 1), (0x800000000002, Value.ofInt 2), (0x800000000004, Value.ofInt 3)]
    ∃ fresh start : Machine, objectNew {} = .ok object fresh ∧ objectHeader? object = some 0x560000000000 ∧
      Kept fresh start 0x560000000000 ∧ start.data = #[97, 0, 98, 0, 97, 0] ∧ (∀ entry ∈ sets, InData start.data entry.1) ∧
      Gives object (setAll object sets start).2 (setAll object sets start).1 := by
  intro object sets
  obtain ⟨heap, hheap, hblocks, made, hmade, hnew⟩ : ∃ heap : Heap, heap.Arises ∧
      heap.blocks.toList = [⟨0x560000000000, 32, #[], false⟩, ⟨0x560000000030, 128, #[], false⟩] ∧ ∃ made,
      made = (heap.write 0x560000000000 itemsWord (0x560000000030 : Nat).toUInt64).write 0x560000000000 capacityWord
        initialCapacity.toUInt64 ∧
      objectNew {} = .ok object { heap := made } :=
    ⟨_, .place .upward 128 (.place .upward 32 .empty rfl) rfl, rfl, _, rfl, rfl⟩
  have htop : ⟨0x560000000000, 32, #[], false⟩ ∈ heap.blocks := by
    rw [← Array.mem_toList_iff, hblocks]
    exact List.mem_cons_self
  have hfirst := hheap.write 0x560000000000 itemsWord (0x560000000030 : Nat).toUInt64
  have hmem := hfirst.sound.mem_write_self
    (hheap.sound.mem_write_self htop itemsWord (0x560000000030 : Nat).toUInt64) capacityWord initialCapacity.toUInt64
  have harises := hfirst.write 0x560000000000 capacityWord initialCapacity.toUInt64
  rw [Block.address_write, ← hmade] at hmem
  rw [← hmade] at harises
  have hheader : objectHeader? object = some 0x560000000000 := by decide
  have hkeys : ∀ entry ∈ sets, InData #[97, 0, 98, 0, 97, 0] entry.1 := by
    intro entry hentry
    simp only [sets, List.mem_cons, List.not_mem_nil, or_false] at hentry
    rcases hentry with rfl | rfl | rfl <;> exact ⟨by decide, by decide, by decide⟩
  have hkept : Kept { heap := made } { heap := made, globals := #[object], data := #[97, 0, 98, 0, 97, 0] } 0x560000000000 :=
    ⟨harises, ⟨_, hmem, rfl, rfl, .root (List.mem_singleton_self _) ⟨by decide, by decide, hmem, by decide⟩⟩, fun _ hblock _ => hblock⟩
  obtain ⟨_, _, hgives, -⟩ := object_is_finite_map .empty hnew hheader hkept hkeys rfl
  exact ⟨_, _, hnew, hheader, hkept, rfl, hkeys, hgives⟩

end NanScript.Record

import NanScript.Machine.Record
import NanScript.Proofs.Heap.Access
import NanScript.Proofs.Probe
import NanScript.Proofs.Value

/-!
# The tables of objects

An object is two blocks: a header, and a table that the header leads to. A table stands for a map from the texts of its
keys to words (`Stores`), and an object for the map of its table (`Holds`). Keys are texts of the program, so they stay
what they are whatever happens to the heap. Insertion changes the map at one key. Growth inserts the entries of the old
table into a new one in the order of their slots: the invariant of that loop is that the new table has just the entries of
the slots that are done.
-/

namespace NanScript

open Probe Block Function Heap

/-! ### Texts of the program -/

namespace Machine

/-- The address of a text of the program. -/
structure InData (data : Array UInt8) (address : Nat) : Prop where
  start : dataStart ≤ address
  stop : address < dataStart + data.size
  bound : address < addressBound

/-- The text of the program at an address, whatever else there is. -/
def keyText (data : Array UInt8) (address : Nat) : List UInt8 := text { data } address

theorem text_of_inData {machine : Machine} {address : Nat} (haddress : InData machine.data address) :
    machine.text address = keyText machine.data address := by
  have hinside : (dataStart ≤ address && address < dataStart + machine.data.size) = true := by
    simp [haddress.start, haddress.stop]
  unfold keyText text
  rw [if_pos hinside, if_pos hinside]

end Machine

namespace Record

open Machine Run

/-! ### Tables -/

variable {data : Array UInt8} {table : Block} {capacity slot key : Nat} {value : UInt64}
  {content : List UInt8 → Option UInt64}

/-- The key in a slot. -/
def keysOf (data : Array UInt8) (table : Block) (slot : Nat) : Option (List UInt8) :=
  if table.read (2 * slot) = 0 then none else some (keyText data (table.read (2 * slot)).toNat)

def valuesOf (table : Block) (slot : Nat) : UInt64 := table.read (2 * slot + 1)

/-- The table stands for the map. -/
structure Stores (data : Array UInt8) (capacity : Nat) (table : Block) (content : List UInt8 → Option UInt64) : Prop where
  keys : ∀ slot, table.read (2 * slot) ≠ 0 → InData data (table.read (2 * slot)).toNat
  maps : Maps capacity Text.hash (keysOf data table) (valuesOf table) content

theorem keysOf_zero (hzero : ∀ position, table.read position = 0) : keysOf data table = fun _ => none := by
  funext slot
  rw [keysOf, if_pos (hzero _)]

theorem stores_zero (hzero : ∀ position, table.read position = 0) : Stores data capacity table fun _ => none :=
  ⟨fun _ hslot => absurd (hzero _) hslot, keysOf_zero hzero ▸ maps_empty⟩

/-- Both words of an entry. -/
def putEntry (table : Block) (slot key : Nat) (value : UInt64) : Block :=
  (table.write (2 * slot) key.toUInt64).write (2 * slot + 1) value

theorem read_putEntry (hslot : 2 * slot + 1 < table.wordCount) (key : Nat) (value : UInt64) (position : Nat) :
    (putEntry table slot key value).read position =
      if position = 2 * slot + 1 then value else if position = 2 * slot then key.toUInt64 else table.read position := by
  rw [putEntry, read_write (by rwa [wordCount_write]), read_write (by omega)]

theorem keysOf_putEntry (hslot : 2 * slot + 1 < table.wordCount) (hkey : InData data key) (value : UInt64) :
    keysOf data (putEntry table slot key value) = update (keysOf data table) slot (some (keyText data key)) := by
  have hword := toNat_toUInt64 hkey.bound
  have hnonzero : key.toUInt64 ≠ 0 := by
    intro hzero
    rw [hzero] at hword
    have hstart := hkey.start
    rw [← hword] at hstart
    exact absurd hstart (by decide)
  funext other
  have hread : (putEntry table slot key value).read (2 * other) =
      if other = slot then key.toUInt64 else table.read (2 * other) := by
    rw [read_putEntry hslot, if_neg (by omega)]
    exact if_congr (by omega) rfl rfl
  rw [keysOf, hread]
  by_cases hother : other = slot
  · rw [hother, update_self, if_pos rfl, if_neg hnonzero, hword]
  · rw [update_of_ne hother, if_neg hother, keysOf]

theorem valuesOf_putEntry (hslot : 2 * slot + 1 < table.wordCount) (key : Nat) (value : UInt64) :
    valuesOf (putEntry table slot key value) = update (valuesOf table) slot value := by
  funext other
  by_cases hother : other = slot
  · subst hother
    rw [update_self, valuesOf, read_putEntry hslot, if_pos rfl]
  · rw [update_of_ne hother, valuesOf, valuesOf, read_putEntry hslot, if_neg (by omega), if_neg (by omega)]

section

variable (hstores : Stores data capacity table content) (hsize : table.wordCount = 2 * capacity) (hcapacity : 0 < capacity)
  (hfound : find? capacity (Text.hash (keyText data key)) (stopsFor (keysOf data table) (keyText data key)) =
    some slot)
include hstores hsize hcapacity hfound

/-- A new entry stands at the slot where the search for its key ends. -/
theorem Stores.put (hkey : InData data key) (value : UInt64) :
    Stores data capacity (putEntry table slot key value) (update content (keyText data key) (some value)) := by
  have hlt := find?_lt hcapacity hfound
  have hslot : 2 * slot + 1 < table.wordCount := by omega
  refine ⟨fun other hother => ?_, ?_⟩
  · rw [read_putEntry hslot, if_neg (by omega)] at hother ⊢
    split at hother
    · rename_i hsame
      rwa [if_pos hsame, toNat_toUInt64 hkey.bound]
    · rename_i hne
      rw [if_neg hne]
      exact hstores.keys other hother
  · rw [keysOf_putEntry hslot hkey, valuesOf_putEntry hslot]
    exact hstores.maps.set hcapacity hfound value

/-- The entry of a key that is there gets another value. Its key stays, though it may be at another address. -/
theorem Stores.replace (hthere : keysOf data table slot = some (keyText data key)) (value : UInt64) :
    Stores data capacity (table.write (2 * slot + 1) value) (update content (keyText data key) (some value)) ∧
      keysOf data (table.write (2 * slot + 1) value) = keysOf data table := by
  have hlt := find?_lt hcapacity hfound
  have hslot : 2 * slot + 1 < table.wordCount := by omega
  have hread (other : Nat) : (table.write (2 * slot + 1) value).read (2 * other) = table.read (2 * other) :=
    read_write_of_ne hslot value (by omega)
  have hkeys : keysOf data (table.write (2 * slot + 1) value) = keysOf data table := by
    funext other
    rw [keysOf, hread, keysOf]
  have hvalues : valuesOf (table.write (2 * slot + 1) value) = update (valuesOf table) slot value := by
    funext other
    rw [valuesOf, read_write hslot, update_apply, valuesOf]
    exact if_congr (by omega) rfl rfl
  refine ⟨⟨fun other hother => ?_, ?_⟩, hkeys⟩
  · rw [hread] at hother ⊢
    exact hstores.keys other hother
  · have hset := hstores.maps.set hcapacity hfound value
    rwa [← hthere, update_eq_self, ← hvalues, ← hkeys] at hset

end

/-! ### Objects -/

variable {machine : Machine} {header : Nat} {top : Block}

/-- The object with this header stands for the map. -/
structure Holds (machine : Machine) (header capacity : Nat) (top table : Block) (content : List UInt8 → Option UInt64) : Prop where
  arises : machine.heap.Arises
  top_mem : top ∈ machine.heap.blocks
  address : top.address = header
  top_size : top.size = headerSize
  items_word : top.read itemsWord = table.address.toUInt64
  capacity_word : top.read capacityWord = capacity.toUInt64
  count_word : top.read countWord = (used capacity (keysOf machine.data table)).toUInt64
  table_mem : table ∈ machine.heap.blocks
  apart : table.address ≠ header
  size : table.wordCount = 2 * capacity
  positive : 0 < capacity
  bound : capacity * 16 ≤ ceiling
  stores : Stores machine.data capacity table content

variable (hholds : Holds machine header capacity top table content)
include hholds

theorem Holds.sound : machine.heap.Sound := hholds.arises.sound

theorem Holds.wordCount_top : top.wordCount = 4 := by
  rw [wordCount, hholds.top_size]
  rfl

theorem Holds.read_top (position : Nat) : machine.heap.read header position = top.read position := by
  rw [← hholds.address, hholds.sound.read_eq hholds.top_mem]

theorem Holds.read_table (position : Nat) : machine.heap.read table.address position = table.read position :=
  hholds.sound.read_eq hholds.table_mem position

theorem Holds.items_toNat : (machine.heap.read header itemsWord).toNat = table.address := by
  rw [hholds.read_top, hholds.items_word, toNat_toUInt64 (hholds.sound.placed table hholds.table_mem).address_lt]

theorem Holds.capacity_toNat : (machine.heap.read header capacityWord).toNat = capacity := by
  have hbound := hholds.bound
  have hceiling : ceiling < addressBound := by decide
  rw [hholds.read_top, hholds.capacity_word, toNat_toUInt64 (by omega)]

theorem Holds.count_toNat :
    (machine.heap.read header countWord).toNat = used capacity (keysOf machine.data table) := by
  have hbound := hholds.bound
  have hused : used capacity (keysOf machine.data table) ≤ capacity := used_le
  have hceiling : ceiling < addressBound := by decide
  rw [hholds.read_top, hholds.count_word, toNat_toUInt64 (by omega)]

theorem Holds.keyAt_eq (slot : Nat) : machine.keyAt table.address slot = (table.read (2 * slot)).toNat := by
  rw [Machine.keyAt, hholds.read_table]

theorem Holds.keyAt_eq_zero : machine.keyAt table.address slot = 0 ↔ keysOf machine.data table slot = none := by
  rw [hholds.keyAt_eq, keysOf, toNat_eq_zero]
  split <;> simp_all

theorem Holds.entrySlot?_eq (bytes : List UInt8) : machine.entrySlot? table.address capacity bytes =
    find? capacity (Text.hash bytes) (stopsFor (keysOf machine.data table) bytes) := by
  unfold Machine.entrySlot?
  congr 1
  funext slot
  by_cases hempty : table.read (2 * slot) = 0
  · simp [hholds.keyAt_eq, stopsFor, keysOf, hempty]
  · have hkey := text_of_inData (hholds.stores.keys slot hempty)
    simp [hholds.keyAt_eq, stopsFor, keysOf, hempty, hkey, toNat_eq_zero]

theorem Holds.find (hroom : used capacity (keysOf machine.data table) < capacity) (bytes : List UInt8) :
    objectFind header bytes machine = .ok ((content bytes).elim .null Value.mk) machine := by
  obtain ⟨slot, hslot⟩ := exists_stop hroom (Text.hash bytes) bytes
  have hcontent := hholds.stores.maps.content_eq hholds.positive hslot
  have hrun : objectFind header bytes machine =
      if machine.keyAt table.address slot = 0 then .ok .null machine
      else .ok ⟨machine.heap.read table.address (2 * slot + 1)⟩ machine := by
    simp only [objectFind, objectCapacity, bind, EStateM.bind, read_run, hholds.items_toNat, hholds.capacity_toNat, pure,
      EStateM.pure, get_run, hholds.entrySlot?_eq, hslot]
    split <;> rfl
  rw [hrun, hcontent, hholds.read_table]
  by_cases hempty : machine.keyAt table.address slot = 0
  · rw [if_pos hempty, hholds.keyAt_eq_zero.1 hempty]
    rfl
  · rw [if_neg hempty]
    obtain ⟨key, hkey⟩ := Option.ne_none_iff_exists'.1 fun hnone => hempty (hholds.keyAt_eq_zero.2 hnone)
    rw [hkey]
    rfl

theorem Holds.insert_run (hkey : InData machine.data key)
    (hfound : find? capacity (Text.hash (keyText machine.data key))
      (stopsFor (keysOf machine.data table) (keyText machine.data key)) = some slot) (value : UInt64) :
    objectInsert header key value machine = .ok () { machine with
      heap := if keysOf machine.data table slot = none then
          ((machine.heap.write table.address (2 * slot) key.toUInt64).write header countWord
            (used capacity (keysOf machine.data table) + 1).toUInt64).write table.address (2 * slot + 1) value
        else machine.heap.write table.address (2 * slot + 1) value } := by
  have hcount : ((machine.heap.write table.address (2 * slot) key.toUInt64).read header countWord).toNat =
      used capacity (keysOf machine.data table) := by
    have hsound := (hholds.arises.write table.address (2 * slot) key.toUInt64).sound
    have htop : top.address ≠ table.address := by
      rw [hholds.address]
      exact hholds.apart.symm
    have hmem := hholds.sound.mem_write_of_ne hholds.top_mem htop (2 * slot) key.toUInt64
    rw [← hholds.count_toNat, hholds.read_top, ← hsound.read_eq hmem, hholds.address]
  simp only [objectInsert, objectCapacity, objectCount, bind, EStateM.bind, read_run, hholds.items_toNat, hholds.capacity_toNat,
    pure, EStateM.pure, get_run, text_of_inData hkey, hholds.entrySlot?_eq, hfound,
    hholds.keyAt_eq_zero]
  split
  · rw [← hcount]
    rfl
  · rfl

/-- Insertion changes the map at its key and nothing outside the object. -/
theorem Holds.insert (hkey : InData machine.data key) (hroom : used capacity (keysOf machine.data table) < capacity)
    (value : UInt64) : ∃ after newTop newTable, objectInsert header key value machine = .ok () { machine with heap := after } ∧
      Holds { machine with heap := after } header capacity newTop newTable
        (update content (keyText machine.data key) (some value)) ∧
      newTable.address = table.address ∧
      used capacity (keysOf machine.data newTable) =
        used capacity (keysOf machine.data table) + (if content (keyText machine.data key) = none then 1 else 0) ∧
      ∀ block ∈ machine.heap.blocks, block.address ≠ header → block.address ≠ table.address → block ∈ after.blocks := by
  obtain ⟨slot, hfound⟩ := exists_stop hroom (Text.hash (keyText machine.data key)) (keyText machine.data key)
  have hrun := hholds.insert_run hkey hfound value
  have hlt := find?_lt hholds.positive hfound
  have hsize := hholds.size
  have hslot : 2 * slot + 1 < table.wordCount := by omega
  have htop : top.address ≠ table.address := by
    rw [hholds.address]
    exact hholds.apart.symm
  rw [hholds.stores.maps.content_eq hholds.positive hfound]
  rcases stopsFor_iff.1 (stop_of_find? hfound) with hnone | hsome
  · -- The slot was empty: the entry is new.
    rw [if_pos hnone] at hrun
    have hused : used capacity (keysOf machine.data (putEntry table slot key value)) =
        used capacity (keysOf machine.data table) + 1 := by
      rw [keysOf_putEntry hslot hkey value, used_update hlt, if_pos hnone]
    have hfirst := hholds.arises.write table.address (2 * slot) key.toUInt64
    have hsecond := hfirst.write header countWord (used capacity (keysOf machine.data table) + 1).toUInt64
    have hthird := hsecond.write table.address (2 * slot + 1) value
    have hwords := hholds.wordCount_top
    have htopMem := hfirst.sound.mem_write_self (hholds.sound.mem_write_of_ne hholds.top_mem htop (2 * slot) key.toUInt64)
      countWord (used capacity (keysOf machine.data table) + 1).toUInt64
    have hkeyed : (table.write (2 * slot) key.toUInt64).address ≠ header := by
      rw [address_write]
      exact hholds.apart
    have htableMem := hfirst.sound.mem_write_of_ne (hholds.sound.mem_write_self hholds.table_mem (2 * slot) key.toUInt64)
      hkeyed countWord (used capacity (keysOf machine.data table) + 1).toUInt64
    rw [hholds.address] at htopMem
    refine ⟨_, top.write countWord (used capacity (keysOf machine.data table) + 1).toUInt64,
      putEntry table slot key value, hrun, ?_, ?_, by rw [hused, hnone]; rfl, ?_⟩
    · exact {
        arises := hthird
        top_mem := hsecond.sound.mem_write_of_ne htopMem (by rw [address_write]; exact htop) _ _
        address := by rw [address_write, hholds.address]
        top_size := by rw [size_write, hholds.top_size]
        items_word := by
          rw [read_write_of_ne (by rw [hwords]; decide) _ (by decide), hholds.items_word, putEntry, address_write,
            address_write]
        capacity_word := by rw [read_write_of_ne (by rw [hwords]; decide) _ (by decide), hholds.capacity_word]
        count_word := by rw [read_write_self (by rw [hwords]; decide), hused]
        table_mem := by
          have hmem := hsecond.sound.mem_write_self htableMem (2 * slot + 1) value
          rwa [address_write] at hmem
        apart := by
          rw [putEntry, address_write, address_write]
          exact hholds.apart
        size := by rw [putEntry, wordCount_write, wordCount_write, hsize]
        positive := hholds.positive
        bound := hholds.bound
        stores := hholds.stores.put hsize hholds.positive hfound hkey value }
    · rw [putEntry, address_write, address_write]
    · intro block hblock hheader htable
      exact hsecond.sound.mem_write_of_ne (hfirst.sound.mem_write_of_ne
        (hholds.sound.mem_write_of_ne hblock htable _ _) hheader _ _) htable _ _
  · -- The key is there already.
    rw [if_neg (by rw [hsome]; exact Option.some_ne_none _)] at hrun
    obtain ⟨hstores, hkeys⟩ := hholds.stores.replace hsize hholds.positive hfound hsome value
    refine ⟨_, top, table.write (2 * slot + 1) value, hrun, ?_, address_write, ?_, ?_⟩
    · exact {
        arises := hholds.arises.write _ _ _
        top_mem := hholds.sound.mem_write_of_ne hholds.top_mem htop _ _
        address := hholds.address
        top_size := hholds.top_size
        items_word := by rw [address_write, hholds.items_word]
        capacity_word := hholds.capacity_word
        count_word := by rw [hkeys, hholds.count_word]
        table_mem := hholds.sound.mem_write_self hholds.table_mem _ _
        apart := by
          rw [address_write]
          exact hholds.apart
        size := by rw [wordCount_write, hsize]
        positive := hholds.positive
        bound := hholds.bound
        stores := hstores }
    · rw [hkeys, hsome]
      rfl
    · intro block hblock _ htable
      exact hholds.sound.mem_write_of_ne hblock htable _ _

/-- The entries of another table go into the object, in the order of their slots. -/
theorem Holds.refill (old : Block) (hold : old ∈ machine.heap.blocks) (hheader : old.address ≠ header)
    (htable : old.address ≠ table.address)
    (hkeys : ∀ slot, old.read (2 * slot) ≠ 0 → InData machine.data (old.read (2 * slot)).toNat) (slots : List Nat)
    (hroom : used capacity (keysOf machine.data table) + slots.length ≤ capacity) :
    ∃ after newTop newTable, objectRefill header old.address slots machine = .ok () { machine with heap := after } ∧
      Holds { machine with heap := after } header capacity newTop newTable
        (slots.foldl (putSlot (keysOf machine.data old) (valuesOf old)) content) ∧
      newTable.address = table.address ∧
      ∀ block ∈ machine.heap.blocks, block.address ≠ header → block.address ≠ table.address → block ∈ after.blocks := by
  induction slots generalizing machine top table content with
  | nil => exact ⟨machine.heap, top, table, rfl, hholds, rfl, fun block hblock _ _ => hblock⟩
  | cons slot rest ih =>
    rw [List.length_cons] at hroom
    rw [List.foldl_cons, putSlot, keysOf]
    have hread (position : Nat) := hholds.sound.read_eq hold position
    by_cases hempty : old.read (2 * slot) = 0
    · rw [if_pos hempty, Option.elim_none]
      obtain ⟨after, newTop, newTable, hrun, hafter⟩ := ih hholds hold htable hkeys (by omega)
      refine ⟨after, newTop, newTable, ?_, hafter⟩
      rw [← hrun]
      simp only [objectRefill, bind, EStateM.bind, read_run, hread, hempty]
      rfl
    · rw [if_neg hempty, Option.elim_some]
      obtain ⟨middle, midTop, midTable, hinsert, hmiddle, haddress, hused, hframe⟩ :=
        hholds.insert (hkeys slot hempty) (by omega) (valuesOf old slot)
      obtain ⟨after, newTop, newTable, hrun, hafter, hsame, hkeep⟩ := ih hmiddle (hframe old hold hheader htable)
        (by rw [haddress]; exact htable) hkeys (by simp only; split at hused <;> omega)
      refine ⟨after, newTop, newTable, ?_, hafter, hsame.trans haddress, fun block hblock hother hapart =>
        hkeep block (hframe block hblock hother hapart) hother (by rw [haddress]; exact hapart)⟩
      rw [← hrun]
      simp only [objectRefill, bind, EStateM.bind, read_run, hread]
      rw [if_pos (by simpa [toNat_eq_zero] using hempty)]
      simp only [EStateM.bind, read_run, hread]
      rw [show objectInsert header (old.read (2 * slot)).toNat (old.read (2 * slot + 1)) machine = _ from hinsert]

/-! ### Growth -/

section

variable (hled : machine.heap.Led machine.roots [header, table.address] header)
include hled

theorem Holds.reached : machine.heap.Reached machine.roots top ∧ machine.heap.Reached machine.roots table := by
  have htable := hholds.sound.placed table hholds.table_mem
  have htop := hled.reached hholds.sound hholds.top_mem hholds.address
  have hinner : pointee (top.read itemsWord) = table.address := by
    have hbound := htable.address_lt
    have hnat : table.address.toUInt64.toNat = table.address := toNat_toUInt64 hbound
    have haddress : addressBound = 2 ^ 48 := by decide
    rw [hholds.items_word, pointee, hnat, if_neg (by omega)]
  have hinside : itemsWord < top.wordCount := by
    rw [hholds.wordCount_top]
    decide
  refine ⟨htop, .inside htop hinside ⟨?_, ?_, hholds.table_mem, hinner.symm⟩⟩
  · rw [hinner]
    exact htable.nonzero
  · rw [hinner]
    exact htable.aligned

theorem Holds.survive {base : Heap} (hbase : Survives machine.roots machine.heap base) :
    Holds { machine with heap := base } header capacity top table content ∧
      base.Led machine.roots [header, table.address] header := by
  obtain ⟨htop, htable⟩ := hholds.reached hled
  refine ⟨{ hholds with
    arises := hbase.arises
    top_mem := (hbase.reached top htop).mem
    table_mem := (hbase.reached table htable).mem }, ?_⟩
  exact hled.keep hholds.sound fun block hblock hown => ⟨(hbase.reached block hblock).mem, hown⟩

end

/-- A header led to another table, that has no entries. -/
def leadTo (heap : Heap) (header table room : Nat) : Heap :=
  ((heap.write header itemsWord table.toUInt64).write header capacityWord room.toUInt64).write header countWord 0

/-- The object is empty after that, and all other blocks are as they were. -/
theorem Holds.lead (room : Nat) {fresh : Block} (hfresh : fresh ∈ machine.heap.blocks) (hapart : fresh.address ≠ header)
    (hzero : ∀ position, fresh.read position = 0) (hsize : fresh.wordCount = 2 * room) (hpositive : 0 < room)
    (hbound : room * 16 ≤ ceiling) :
    (∃ newTop, Holds { machine with heap := leadTo machine.heap header fresh.address room } header room newTop fresh fun _ => none) ∧
      ∀ block ∈ machine.heap.blocks, block.address ≠ header →
        block ∈ (leadTo machine.heap header fresh.address room).blocks := by
  have hwords := hholds.wordCount_top
  have hfirst := hholds.arises.write header itemsWord fresh.address.toUInt64
  have hsecond := hfirst.write header capacityWord room.toUInt64
  have hmem := hholds.sound.mem_write_self hholds.top_mem itemsWord fresh.address.toUInt64
  have hmem := hfirst.sound.mem_write_self (hholds.address ▸ hmem) capacityWord room.toUInt64
  rw [address_write, hholds.address] at hmem
  have hmem := hsecond.sound.mem_write_self hmem countWord 0
  rw [address_write, address_write, hholds.address] at hmem
  have hframe (block : Block) (hblock : block ∈ machine.heap.blocks) (hother : block.address ≠ header) :
      block ∈ (leadTo machine.heap header fresh.address room).blocks :=
    hsecond.sound.mem_write_of_ne (hfirst.sound.mem_write_of_ne
      (hholds.sound.mem_write_of_ne hblock hother _ _) hother _ _) hother _ _
  refine ⟨⟨_, hsecond.write header countWord 0, hmem, ?_, ?_, ?_, ?_, ?_, hframe fresh hfresh hapart, hapart, hsize, hpositive, hbound,
    stores_zero hzero⟩, hframe⟩
  · simp [hholds.address]
  · simp [hholds.top_size]
  · rw [read_write_of_ne (by simp [hwords]; decide) _ (by decide), read_write_of_ne (by simp [hwords]; decide) _ (by decide),
      read_write_self (by rw [hwords]; decide)]
  · rw [read_write_of_ne (by simp [hwords]; decide) _ (by decide), read_write_self (by simp [hwords]; decide)]
  · rw [read_write_self (by simp [hwords]; decide), keysOf_zero hzero, used_empty]
    rfl

/-- Growth doubles the capacity and keeps the map, or fails and changes nothing. -/
theorem Holds.grow (hled : machine.heap.Led machine.roots [header, table.address] header) :
    (∃ after newTop newTable, objectGrow header machine = .ok () { machine with heap := after } ∧
      Holds { machine with heap := after } header (capacity * 2) newTop newTable content ∧
      after.Led machine.roots [header, newTable.address] header) ∨
    ∃ after, objectGrow header machine = .error (.outOfMemory (capacity * 32)) { machine with heap := after } ∧
      Holds { machine with heap := after } header capacity top table content ∧
      after.Led machine.roots [header, table.address] header := by
  have hbound := hholds.bound
  have hpositive := hholds.positive
  have hceiling : ceiling = 0x800000000000 := rfl
  have hrounded : rounded (capacity * 2 * 16).toUInt64 = some (capacity * 32).toUInt64 := by
    rw [show capacity * 2 * 16 = capacity * 4 * 8 by omega, rounded_words (by omega) (by omega)]
    congr 2
    omega
  have hsize : (capacity * 32).toUInt64.toNat = capacity * 32 := UInt64.toNat_ofNat_of_lt' (by unfold UInt64.size; omega)
  have hlargest : largest.toNat = 0x7FFFFFFFFFFFFFF8 := rfl
  obtain ⟨base, hbase, ⟨address, hfresh, hallocate⟩ | hallocate⟩ :=
    allocate_cases hholds.arises hrounded (by omega)
  · left
    obtain ⟨hheld, hway⟩ := hholds.survive hled hbase
    have hroom := hfresh.bound
    rw [hsize] at hroom
    have hplaced : Holds { machine with heap := base.insert address (capacity * 32).toUInt64 } header capacity top table content :=
      { hheld with
        arises := hbase.arises.insert hfresh
        top_mem := mem_insert.2 (.inl hheld.top_mem)
        table_mem := mem_insert.2 (.inl hheld.table_mem) }
    obtain ⟨⟨newTop, hempty⟩, hframe⟩ := hplaced.lead (capacity * 2) (mem_insert.2 (.inr rfl))
      (fun heq => hfresh.ne_address hheld.top_mem (hheld.address.trans heq.symm)) (read_mk _ _)
      (by rw [wordCount, hsize]; omega) (by omega) (by omega)
    obtain ⟨after, lastTop, lastTable, hrun, hafter, hsame, hkeep⟩ := hempty.refill table
      (hframe table hplaced.table_mem hheld.apart) hheld.apart (hfresh.ne_address hheld.table_mem) hholds.stores.keys
      (List.range capacity) (by rw [keysOf_zero (read_mk _ _), used_empty, List.length_range]; omega)
    rw [hholds.stores.maps.foldl_putSlot_eq] at hafter
    have hopen : after.Led machine.roots [header, lastTable.address] header := by
      -- The new table has an address that no block on the way has.
      refine hway.keep hheld.sound fun block hblock hown => ?_
      have hother : block.address ≠ header := fun heq => hown (by simp [heq])
      have hnew := hfresh.ne_address hblock.mem
      rw [hsame]
      exact ⟨hkeep block (hframe block (mem_insert.2 (.inl hblock.mem)) hother) hother hnew, by simp [hother, hnew]⟩
    refine ⟨after, lastTop, lastTable, ?_, hafter, hopen⟩
    rw [← hrun]
    simp only [objectGrow, objectCapacity, bind, EStateM.bind, read_run, hholds.items_toNat, hholds.capacity_toNat, pure, EStateM.pure,
      allocateEntries, hallocate]
    rfl
  · right
    refine ⟨base, ?_, hholds.survive hled hbase⟩
    simp only [objectGrow, objectCapacity, bind, EStateM.bind, read_run, hholds.items_toNat, hholds.capacity_toNat, pure, EStateM.pure,
      allocateEntries, hallocate, hsize]

end Record

end NanScript

/-!
# Linear probing

Open-addressing tables look for a key from its home slot onward and wrap around at the end of the table. The interner
and the property tables of objects differ in where their slots live and in how a number is brought into the table, by a
mask or by a remainder. The search is the same, over slot numbers only.
-/

namespace NanScript.Probe

/-- The first of the next `steps` slots from `slot` on at which `stop` holds. Numbers are brought into the table by `wrap`. -/
def seek (wrap : Nat → Nat) (stop : Nat → Bool) : Nat → Nat → Option Nat
  | 0, _ => none
  | steps + 1, slot => if stop slot then some slot else seek wrap stop steps (wrap (slot + 1))

/-- The first slot in probing order from the home slot of `hash` at which `stop` holds. -/
def find? (size : Nat) (hash : UInt32) (stop : Nat → Bool) : Option Nat := seek (· % size) stop size (hash.toNat % size)

/-- The same search with a mask, for sizes that are powers of two. -/
def masked? (size : Nat) (hash : UInt32) (stop : Nat → Bool) : Option Nat :=
  seek (· &&& (size - 1)) stop size (hash.toNat &&& (size - 1))

variable {size steps slot found : Nat} {hash : UInt32} {stop : Nat → Bool}

theorem stop_of_seek {wrap : Nat → Nat} (hfound : seek wrap stop steps slot = some found) : stop found = true := by
  induction steps generalizing slot with
  | zero => simp [seek] at hfound
  | succ steps ih =>
    rw [seek] at hfound
    split at hfound
    · simp_all
    · exact ih hfound

theorem seek_lt (hslot : slot < size) (hfound : seek (· % size) stop steps slot = some found) : found < size := by
  induction steps generalizing slot with
  | zero => simp [seek] at hfound
  | succ steps ih =>
    rw [seek] at hfound
    split at hfound
    · simp_all
    · exact ih (Nat.mod_lt _ (by omega)) hfound

theorem stop_of_find? (hfound : find? size hash stop = some found) : stop found = true := stop_of_seek hfound

theorem find?_lt (hsize : 0 < size) (hfound : find? size hash stop = some found) : found < size :=
  seek_lt (Nat.mod_lt _ hsize) hfound

/-- A mask is a remainder if the size is a power of two. -/
theorem masked?_eq (hsize : size.isPowerOfTwo) : masked? size hash stop = find? size hash stop := by
  obtain ⟨exponent, rfl⟩ := hsize
  have hwrap : (fun number : Nat => number &&& (2 ^ exponent - 1)) = (· % 2 ^ exponent) :=
    funext fun number => Nat.and_two_pow_sub_one_eq_mod number exponent
  rw [masked?, hwrap, Nat.and_two_pow_sub_one_eq_mod]
  rfl

end NanScript.Probe

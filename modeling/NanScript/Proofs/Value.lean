import NanScript.Proofs.Heap.Reachability

/-!
# Boxed addresses

A boxed address can be read back: the word tells what it is and where it is. It refers to the block at its address.
-/

namespace NanScript

theorem toNat_toUInt64 {number : Nat} (hbound : number < Heap.addressBound) : number.toUInt64.toNat = number :=
  UInt64.toNat_ofNat_of_lt' (Nat.lt_trans hbound (by decide))

theorem toNat_eq_zero {word : UInt64} : word.toNat = 0 ↔ word = 0 := by
  rw [← UInt64.toNat_inj]
  rfl

namespace Value

variable {tag : Tag} {address : Nat} {value : Value}

theorem payload_eq (value : Value) : value.payload = value.bits.toNat % Heap.addressBound := by
  show (value.bits &&& 0x0000FFFFFFFFFFFF).toNat = _
  rw [UInt64.toNat_and]
  exact Nat.and_two_pow_sub_one_eq_mod _ 48

theorem toNat_shiftRight_bits (value : Value) : (value.bits >>> 48).toNat = value.bits.toNat / Heap.addressBound := by
  rw [UInt64.toNat_shiftRight]
  exact Nat.shiftRight_eq_div_pow _ _

theorem toNat_ofAddress (tag : Tag) (address : Nat) :
    (ofAddress tag address).bits.toNat = Heap.addressBound * tag.top.toNat + address % Heap.addressBound := by
  have hlow : (address.toUInt64 &&& payloadMask).toNat = address % Heap.addressBound := by
    rw [UInt64.toNat_and]
    refine (Nat.and_two_pow_sub_one_eq_mod _ 48).trans ?_
    exact Nat.mod_mod_of_dvd address (show 2 ^ 48 ∣ 2 ^ 64 by decide)
  have hhigh : tag.bits.toNat = Heap.addressBound * tag.top.toNat := by cases tag <;> rfl
  show (tag.bits ||| (address.toUInt64 &&& payloadMask)).toNat = _
  rw [UInt64.toNat_or, hlow, hhigh]
  exact (Nat.two_pow_add_eq_or_of_lt (i := 48) (Nat.mod_lt _ (by decide)) _).symm

theorem tag?_ofAddress (tag : Tag) (address : Nat) : (ofAddress tag address).tag? = some tag := by
  have htop : (ofAddress tag address).bits >>> 48 = tag.top := by
    rw [← UInt64.toNat_inj, toNat_shiftRight_bits, toNat_ofAddress, Nat.mul_add_div (by decide),
      Nat.div_eq_of_lt (Nat.mod_lt _ (by decide)), Nat.add_zero]
  rw [tag?, htop]
  cases tag <;> rfl

theorem payload_ofAddress (tag : Tag) (address : Nat) : (ofAddress tag address).payload = address % Heap.addressBound := by
  rw [payload_eq, toNat_ofAddress, Nat.mul_add_mod, Nat.mod_mod]

theorem kind_eq_str : value.kind = .str address ↔ value.tag? = some .str ∧ value.payload = address := by
  unfold kind
  split <;> simp_all

theorem kind_eq_object : value.kind = .object address ↔ value.tag? = some .object ∧ value.payload = address := by
  unfold kind
  split <;> simp_all

theorem kind_eq_list : value.kind = .list address ↔ value.tag? = some .list ∧ value.payload = address := by
  unfold kind
  split <;> simp_all

/-- The address in a boxed string, object or list, as it stands in the kind of the value. -/
theorem pointee_of_tag (htag : value.tag? = some .str ∨ value.tag? = some .object ∨ value.tag? = some .list) :
    Heap.pointee value.bits = value.payload := by
  have haddress : value.heapAddress? = some value.payload := by
    rcases htag with htag | htag | htag <;> rw [heapAddress?, htag]
  have hboxed := Heap.heapAddress?_eq value.bits
  rw [show heapAddress? ⟨value.bits⟩ = _ from haddress] at hboxed
  unfold Heap.pointee
  split at hboxed
  · rename_i hhigh
    rw [if_pos hhigh]
    exact (Option.some.inj hboxed).symm
  · cases hboxed

end Value

end NanScript

import NanScript.Proofs.Value

/-!
# Boxing loses nothing

A word made from a value of any kind tells the kind and the value again. The only doubles that change are those that would
look like a tagged word: they become the plain NaN, so two boxed values are one word only if they are the same value. All other
words are a tag and a payload (`Value.ofAddress`), with the payload zero if the tag says it all.
-/

namespace NanScript

open Value

namespace Kind

/-- The word for a value of a kind. -/
def box : Kind → Value
  | float bits => .ofFloat bits
  | null => .null
  | bool value => .ofBool value
  | int value => .ofInt32 value
  | str address => .ofAddress .str address
  | object address => .ofAddress .object address
  | list address => .ofAddress .list address

/-- What is boxed: the doubles that look like a tagged word are one. -/
def settled : Kind → Kind
  | float bits => float (if (0xFFF9 : UInt64) ≤ bits >>> 48 then 0x7FF8000000000000 else bits)
  | kind => kind

/-- The tag of the word. -/
def tag? : Kind → Option Tag
  | float _ => none
  | null => some .null
  | bool value => some (if value then .boolTrue else .boolFalse)
  | int _ => some .int
  | str _ => some .str
  | object _ => some .object
  | list _ => some .list

def address? : Kind → Option Nat
  | str address | object address | list address => some address
  | _ => none

def int? : Kind → Option Int32
  | int value => some value
  | _ => none

def float? : Kind → Option UInt64
  | float bits => some bits
  | _ => none

/-- An address, if there is one, has 48 bits. -/
def Addressable (kind : Kind) : Prop := ∀ address ∈ kind.address?, address < 0x1000000000000

end Kind

namespace Tag

/-- The tops of tagged words are the last seven. -/
theorem isSome_ofTop? {top : UInt64} (hbound : top.toNat < 0x10000) : (ofTop? top).isSome = true ↔ 0xFFF9 ≤ top := by
  rw [ofTop?, List.find?_isSome, UInt64.le_iff_toNat_le]
  simp only [beq_iff_eq, ← UInt64.toNat_inj]
  constructor
  · rintro ⟨tag, -, htop⟩
    rw [← htop]
    cases tag <;> decide
  · intro hlarge
    have hlarge' : 0xFFF9 ≤ top.toNat := hlarge
    have hcases : top.toNat = 0xFFF9 ∨ top.toNat = 0xFFFA ∨ top.toNat = 0xFFFB ∨ top.toNat = 0xFFFC ∨ top.toNat = 0xFFFD ∨
      top.toNat = 0xFFFE ∨ top.toNat = 0xFFFF := by omega
    rcases hcases with htop | htop | htop | htop | htop | htop | htop <;> rw [htop]
    exacts [⟨null, by decide, rfl⟩, ⟨boolFalse, by decide, rfl⟩, ⟨boolTrue, by decide, rfl⟩, ⟨int, by decide, rfl⟩,
      ⟨str, by decide, rfl⟩, ⟨object, by decide, rfl⟩, ⟨list, by decide, rfl⟩]

end Tag

namespace Value

theorem isSome_tag? (value : Value) : value.tag?.isSome = true ↔ (0xFFF9 : UInt64) ≤ value.bits >>> 48 := by
  refine Tag.isSome_ofTop? ?_
  have hbits := value.bits.toNat_lt
  rw [toNat_shiftRight_bits]
  exact Nat.div_lt_of_lt_mul hbits

theorem ofFloat_eq (bits : UInt64) :
    ofFloat bits = ⟨if (0xFFF9 : UInt64) ≤ bits >>> 48 then 0x7FF8000000000000 else bits⟩ := by
  simp only [ofFloat, isSome_tag?]
  split <;> rfl

theorem tag?_ofFloat (bits : UInt64) : (ofFloat bits).tag? = none := by
  unfold ofFloat
  split
  · rfl
  · rename_i hplain
    exact Option.not_isSome_iff_eq_none.1 hplain

/-! ### Every word is read as its kind tells -/

theorem heapAddress?_eq_kind (value : Value) : value.heapAddress? = value.kind.address? := by
  unfold heapAddress? kind
  rcases value.tag? with _ | tag
  · rfl
  · cases tag <;> rfl

theorem int?_eq_kind (value : Value) : value.int? = value.kind.int? := by
  unfold int? kind
  rcases value.tag? with _ | tag
  · rfl
  · cases tag <;> rfl

theorem float?_eq_kind (value : Value) : value.float? = value.kind.float? := by
  unfold float? isFloat kind
  rcases value.tag? with _ | tag
  · rfl
  · cases tag <;> rfl

/-! ### Tagged words -/

theorem ofInt32_eq (value : Int32) : ofInt32 value = ofAddress .int value.toUInt32.toNat := by
  have hbound := value.toUInt32.toNat_lt
  have hpayload : value.toUInt32.toUInt64 = value.toUInt32.toNat.toUInt64 &&& payloadMask := by
    rw [← UInt64.toNat_inj, UInt64.toNat_and, toNat_toUInt64 (Nat.lt_trans hbound (by decide)), UInt32.toNat_toUInt64]
    refine Eq.trans ?_ (Nat.and_two_pow_sub_one_eq_mod _ 48).symm
    rw [Nat.mod_eq_of_lt (Nat.lt_trans hbound (by decide))]
  rw [ofInt32, ofAddress, hpayload]

theorem int32_ofInt32 (value : Int32) : (ofInt32 value).int32 = value := by
  have hlow : (ofInt32 value).bits.toUInt32 = value.toUInt32 := by
    have hbound := value.toUInt32.toNat_lt
    have htop : (0x1000000000000 * Tag.int.top.toNat + value.toUInt32.toNat) % 2 ^ 32 = value.toUInt32.toNat % 2 ^ 32 := by
      omega
    rw [← UInt32.toNat_inj, UInt64.toNat_toUInt32, ofInt32_eq, toNat_ofAddress,
      Nat.mod_eq_of_lt (show value.toUInt32.toNat < Heap.addressBound from Nat.lt_trans hbound (by decide))]
    exact htop.trans (Nat.mod_eq_of_lt hbound)
  rw [int32, hlow]
  rfl

theorem tag?_box (kind : Kind) : kind.box.tag? = kind.tag? := by
  cases kind with
  | float bits => exact tag?_ofFloat bits
  | null => rfl
  | bool value => cases value <;> rfl
  | int value =>
    rw [Kind.box, ofInt32_eq]
    exact tag?_ofAddress _ _
  | str | object | list => exact tag?_ofAddress _ _

end Value

namespace Kind

variable {kind : Kind}

theorem box_settled (kind : Kind) : kind.settled.box = kind.box := by
  cases kind with
  | float bits =>
    simp only [settled, box, ofFloat_eq]
    split <;> rfl
  | _ => rfl

theorem kind_box (haddress : kind.Addressable) : kind.box.kind = kind.settled := by
  have htag := tag?_box kind
  unfold Value.kind
  rw [htag]
  cases kind with
  | float bits => exact congrArg (fun value => float value.bits) (ofFloat_eq bits)
  | null => rfl
  | bool value => cases value <;> rfl
  | int value => exact congrArg int (int32_ofInt32 value)
  | str address | object address | list address =>
    have hbound : address < Heap.addressBound := haddress _ rfl
    exact congrArg _ ((payload_ofAddress _ address).trans (Nat.mod_eq_of_lt hbound))

theorem isNull_box (kind : Kind) : kind.box.isNull = true ↔ kind = .null := by
  rw [isNull, beq_iff_eq]
  refine ⟨fun hnull => ?_, fun hnull => hnull ▸ rfl⟩
  have htag := tag?_box kind
  rw [hnull, show Value.null.tag? = some .null from rfl] at htag
  cases kind with
  | null => rfl
  | bool value => cases value <;> cases htag
  | _ => cases htag

end Kind

/-- A boxed value tells its kind and what it is; of the doubles, those with a top from `fff9` on come back as the plain NaN. Two
boxed values are the same word only if they are the same value. Whatever is read off a boxed value is what its kind says. -/
theorem boxing_lossless {kind : Kind} (haddress : kind.Addressable) :
    kind.box.kind = kind.settled ∧
      (∀ other : Kind, other.Addressable → (other.box = kind.box ↔ other.settled = kind.settled)) ∧
      kind.box.heapAddress? = kind.settled.address? ∧ kind.box.int? = kind.settled.int? ∧
      kind.box.float? = kind.settled.float? ∧ (kind.box.isNull = true ↔ kind.settled = .null) := by
  have hkind := Kind.kind_box haddress
  refine ⟨hkind, fun other hother => ⟨fun hsame => ?_, fun hsame => ?_⟩, ?_, ?_, ?_, ?_⟩
  · rw [← hkind, ← Kind.kind_box hother, hsame]
  · rw [← Kind.box_settled, hsame, Kind.box_settled]
  · rw [Value.heapAddress?_eq_kind, hkind]
  · rw [Value.int?_eq_kind, hkind]
  · rw [Value.float?_eq_kind, hkind]
  · rw [← Kind.box_settled, Kind.isNull_box]

/-- A negative NaN that would be taken for the last list. -/
theorem boxing_lossless_collision :
    (Kind.float 0xFFFFFFFFFFFFFFFF).Addressable ∧ (Kind.list 0xFFFFFFFFFFFF).Addressable ∧
      (Kind.list 0xFFFFFFFFFFFF).box = ⟨0xFFFFFFFFFFFFFFFF⟩ ∧
      (Kind.float 0xFFFFFFFFFFFFFFFF).box.kind = .float 0x7FF8000000000000 ∧
      (Kind.list 0xFFFFFFFFFFFF).box ≠ (Kind.float 0xFFFFFFFFFFFFFFFF).box := by
  have hlist : (Kind.list 0xFFFFFFFFFFFF).Addressable := by rintro _ ⟨⟩; decide
  have hfloat : (Kind.float 0xFFFFFFFFFFFFFFFF).Addressable := nofun
  obtain ⟨hkind, hsame, -⟩ := boxing_lossless hfloat
  exact ⟨hfloat, hlist, by decide, hkind.trans (by decide), fun heq => absurd ((hsame _ hlist).1 heq) (by decide)⟩

end NanScript

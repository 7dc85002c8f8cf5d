import NanScript.Proofs.Heap.Integrity

/-!
# Marking reaches what can be reached

A word refers to the block at the address that it stands for. A block is reached if a root refers to it, or a word of a block
that is reached. Marking sets the marks of just these blocks, and changes nothing else: what is marked is reached, all that
the roots refer to is marked, and all that a marked block refers to is marked or will be, as long as the block waits. The last
is the invariant of the loop.
-/

namespace NanScript.Heap

open List

/-! ### Words and blocks -/

/-- The address that a word stands for: the lower 48 bits of a boxed string, object or list, and all of any other word. -/
def pointee (word : UInt64) : Nat := if 0xFFFD ≤ word.toNat / 2 ^ 48 then word.toNat % 2 ^ 48 else word.toNat

theorem heapAddress?_eq (word : UInt64) :
    Value.heapAddress? ⟨word⟩ = if 0xFFFD ≤ word.toNat / 2 ^ 48 then some (word.toNat % 2 ^ 48) else none := by
  have hpayload : Value.payload ⟨word⟩ = word.toNat % 2 ^ 48 := by
    show (word &&& 0x0000FFFFFFFFFFFF).toNat = _
    rw [UInt64.toNat_and]
    exact Nat.and_two_pow_sub_one_eq_mod _ 48
  have htop : (word >>> 48).toNat = word.toNat / 2 ^ 48 := by
    rw [UInt64.toNat_shiftRight]
    exact Nat.shiftRight_eq_div_pow _ _
  have hsmall : (word >>> 48).toNat < 2 ^ 16 := by
    rw [htop]
    have hword := word.toNat_lt
    omega
  rw [← htop, ← hpayload]
  dsimp only [Value.heapAddress?, Value.tag?]
  generalize word >>> 48 = top at hsmall ⊢
  have htops : top = 0xFFFD ∨ top = 0xFFFE ∨ top = 0xFFFF ∨ top.toNat < 0xFFFD := by
    simp only [← UInt64.toNat_inj, UInt64.reduceToNat]
    omega
  rcases htops with rfl | rfl | rfl | hlow
  · rfl
  · rfl
  · rfl
  · rw [if_neg (Nat.not_le.2 hlow)]
    cases htag : Tag.ofTop? top with
    | none => rfl
    | some tag =>
      unfold Tag.ofTop? at htag
      have hfound := find?_some htag
      obtain rfl := beq_iff_eq.1 hfound
      cases tag with
      | str | object | list => exact absurd hlow (by decide)
      | _ => rfl

theorem candidate_eq_pointee (word : UInt64) : candidate word = pointee word := by
  unfold candidate pointee
  rw [heapAddress?_eq]
  split <;> rfl

structure Refers (heap : Heap) (word : UInt64) (block : Block) : Prop where
  nonzero : pointee word ≠ 0
  aligned : pointee word % 8 = 0
  mem : block ∈ heap.blocks
  address : block.address = pointee word

inductive Reached (heap : Heap) (roots : List UInt64) : Block → Prop
  | root {word : UInt64} {block : Block} (hword : word ∈ roots) (hrefers : heap.Refers word block) : Reached heap roots block
  | inside {outer block : Block} {position : Nat} (houter : Reached heap roots outer) (hposition : position < outer.wordCount)
      (hrefers : heap.Refers (outer.read position) block) : Reached heap roots block

variable {heap : Heap} {block : Block} {position : Nat} {word : UInt64}

theorem Reached.mem {roots : List UInt64} (hreached : heap.Reached roots block) : block ∈ heap.blocks := by
  cases hreached with
  | root _ hrefers => exact hrefers.mem
  | inside _ _ hrefers => exact hrefers.mem

theorem Sound.find?_eq_some (hsound : heap.Sound) :
    heap.find? word = some position ↔ ∃ block, heap.blocks[position]? = some block ∧ heap.Refers word block := by
  have hfind : heap.find? word = some position ↔ pointee word ≠ 0 ∧ pointee word % 8 = 0 ∧
      heap.filter.mayContain (pointee word) = true ∧ heap.index[pointee word]? = some position := by
    simp only [find?, candidate_eq_pointee]
    split
    · next hno =>
      simp only [Bool.or_eq_true, decide_eq_true_eq, bne_iff_ne, ne_eq, Bool.not_eq_true'] at hno
      simp only [reduceCtorEq, false_iff]
      rintro ⟨hnonzero, haligned, hfilter, -⟩
      rcases hno with (hzero | hodd) | hnew
      · exact hnonzero hzero
      · exact hodd haligned
      · rw [hfilter] at hnew
        contradiction
    · next hyes =>
      simp only [Bool.or_eq_true, decide_eq_true_eq, bne_iff_ne, ne_eq, Bool.not_eq_true', not_or, not_not,
        Bool.not_eq_false] at hyes
      exact ⟨fun hindex => ⟨hyes.1.1, hyes.1.2, hyes.2, hindex⟩, fun hfound => hfound.2.2.2⟩
  rw [hfind]
  constructor
  · rintro ⟨hnonzero, haligned, -, hindex⟩
    obtain ⟨block, hblock, haddress⟩ := (hsound.index _ _).1 hindex
    exact ⟨block, hblock, hnonzero, haligned, Array.mem_of_getElem? hblock, haddress⟩
  · rintro ⟨block, hblock, hnonzero, haligned, hmem, haddress⟩
    refine ⟨hnonzero, haligned, haddress ▸ hsound.filter block hmem, (hsound.index _ _).2 ⟨block, hblock, haddress⟩⟩

theorem Sound.position_unique (hsound : heap.Sound) {first second : Nat} (hfirst : heap.blocks[first]? = some block)
    (hsecond : heap.blocks[second]? = some block) : first = second := by
  have hfirst := (hsound.index block.address first).2 ⟨block, hfirst, rfl⟩
  have hsecond := (hsound.index block.address second).2 ⟨block, hsecond, rfl⟩
  exact Option.some.inj (hfirst.symm.trans hsecond)

/-! ### Following words -/

/-- The second heap is the first, which has no marks, with some marks set. -/
structure Remarked (heap other : Heap) : Prop where
  blocks : other.blocks.map Block.unmark = heap.blocks
  rest : { other with blocks := heap.blocks } = heap

namespace Remarked

variable {other : Heap}

theorem find?_eq (hsame : heap.Remarked other) (word : UInt64) : other.find? word = heap.find? word := by
  conv_rhs => rw [← hsame.rest]
  rfl

theorem size_eq (hsame : heap.Remarked other) : other.blocks.size = heap.blocks.size := by
  rw [← hsame.blocks, Array.size_map]

theorem getElem?_eq (hsame : heap.Remarked other) (position : Nat) :
    heap.blocks[position]? = other.blocks[position]?.map Block.unmark := by
  rw [← hsame.blocks, Array.getElem?_map]

theorem set {position : Nat} {hinside : position < other.blocks.size} (hsame : heap.Remarked other) :
    heap.Remarked { other with blocks := other.blocks.set position other.blocks[position].mark } where
  blocks := by
    rw [← hsame.blocks]
    refine Array.ext_getElem? fun spot => ?_
    rw [Array.getElem?_map, Array.getElem?_map, Array.getElem?_set]
    split
    · next hspot =>
      rw [← hspot, Array.getElem?_eq_getElem hinside]
      rfl
    · rfl
  rest := hsame.rest

end Remarked

theorem Sound.remarked_self (hsound : heap.Sound) : heap.Remarked heap where
  blocks := by
    refine Array.ext_getElem? fun position => ?_
    rw [Array.getElem?_map]
    cases hblock : heap.blocks[position]? with
    | none => rfl
    | some block =>
      have hunmarked := (hsound.placed block (Array.mem_of_getElem? hblock)).unmarked
      rw [Option.map_some, Block.unmark, ← hunmarked]
  rest := rfl

namespace Marking

variable {heap : Heap} {roots words : List UInt64} {old new marking : Marking}

/-- The block at a position has been reached. -/
def Marked (marking : Marking) (position : Nat) : Prop := marking.heap.blocks[position]?.map Block.marked = some true

/-- What happens to a marking when words are followed. -/
structure Follows (heap : Heap) (words : List UInt64) (old new : Marking) : Prop where
  same : heap.Remarked new.heap
  keeps : ∀ position, old.Marked position → new.Marked position
  /-- All that the words refer to is marked. -/
  marks : ∀ word ∈ words, ∀ position, heap.find? word = some position → new.Marked position
  /-- Nothing else is. -/
  only : ∀ position, new.Marked position → old.Marked position ∨ ∃ word ∈ words, heap.find? word = some position
  /-- What waits is marked or waited before. -/
  waits : ∀ position ∈ new.pending, position ∈ old.pending ∨ new.Marked position
  /-- What is marked and does not wait was so before. -/
  settled : ∀ position, new.Marked position → position ∉ new.pending → old.Marked position ∧ position ∉ old.pending

theorem follows_self (hsame : heap.Remarked marking.heap)
    (hmarks : ∀ word ∈ words, ∀ position, heap.find? word = some position → marking.Marked position) :
    Follows heap words marking marking :=
  ⟨hsame, fun _ hmarked => hmarked, hmarks, fun _ hmarked => .inl hmarked, fun _ hwaits => .inl hwaits,
    fun _ hmarked hsettled => ⟨hmarked, hsettled⟩⟩

theorem Follows.trans {middle : Marking} {more : List UInt64} (h : Follows heap words old middle)
    (h' : Follows heap more middle new) : Follows heap (words ++ more) old new where
  same := h'.same
  keeps position hmarked := h'.keeps position (h.keeps position hmarked)
  marks word hword position hfind := by
    rcases mem_append.1 hword with hword | hword
    · exact h'.keeps position (h.marks word hword position hfind)
    · exact h'.marks word hword position hfind
  only position hmarked := by
    rcases h'.only position hmarked with hmarked | ⟨word, hword, hfind⟩
    · rcases h.only position hmarked with hmarked | ⟨word, hword, hfind⟩
      · exact .inl hmarked
      · exact .inr ⟨word, mem_append_left _ hword, hfind⟩
    · exact .inr ⟨word, mem_append_right _ hword, hfind⟩
  waits position hwaits := by
    rcases h'.waits position hwaits with hwaits | hmarked
    · exact (h.waits position hwaits).imp_right (h'.keeps position)
    · exact .inr hmarked
  settled position hmarked hsettled := by
    obtain ⟨hmarked, hsettled⟩ := h'.settled position hmarked hsettled
    exact h.settled position hmarked hsettled

theorem inside_of_find? (hsound : heap.Sound) (hsame : heap.Remarked marking.heap)
    (hfind : heap.find? word = some position) : position < marking.heap.blocks.size := by
  obtain ⟨block, hblock, -⟩ := hsound.find?_eq_some.1 hfind
  obtain ⟨hinside, -⟩ := Array.getElem?_eq_some_iff.1 hblock
  exact hsame.size_eq ▸ hinside

theorem follows_note (hsound : heap.Sound) (hsame : heap.Remarked marking.heap) (word : UInt64) :
    Follows heap [word] marking (marking.note word) := by
  unfold note
  split
  · next position hfind =>
    rw [hsame.find?_eq] at hfind
    have hinside := inside_of_find? hsound hsame hfind
    have hword {other : Nat} (hother : heap.find? word = some other) : other = position :=
      (Option.some.inj (hother.symm.trans hfind))
    rw [dif_pos hinside]
    split
    · next hmarked =>
      have hmarked : marking.Marked position := by
        rw [Marked, Array.getElem?_eq_getElem hinside, Option.map_some, hmarked]
      refine follows_self hsame fun other hother position' hfind' => ?_
      obtain rfl := mem_singleton.1 hother
      exact hword hfind' ▸ hmarked
    · have hset (other : Nat) : Marked ⟨{ marking.heap with
            blocks := marking.heap.blocks.set position marking.heap.blocks[position].mark }, position :: marking.pending⟩
          other ↔ other = position ∨ marking.Marked other := by
        unfold Marked
        rw [Array.getElem?_set]
        by_cases hother : position = other
        · simp [hother, Block.mark]
        · simp [hother, Ne.symm hother]
      refine ⟨hsame.set, ?_, ?_, ?_, ?_, ?_⟩
      · exact fun other hmarked => (hset other).2 (.inr hmarked)
      · intro other hother position' hfind'
        obtain rfl := mem_singleton.1 hother
        exact (hset position').2 (.inl (hword hfind'))
      · intro other hmarked
        rcases (hset other).1 hmarked with rfl | hmarked
        · exact .inr ⟨word, mem_singleton_self _, hfind⟩
        · exact .inl hmarked
      · intro other hwaits
        rcases mem_cons.1 hwaits with rfl | hwaits
        · exact .inr ((hset other).2 (.inl rfl))
        · exact .inl hwaits
      · intro other hmarked hsettled
        obtain ⟨hother, hsettled⟩ := not_or.1 (mem_cons.not.1 hsettled)
        exact ⟨((hset other).1 hmarked).resolve_left hother, hsettled⟩
  · next hfind =>
    rw [hsame.find?_eq] at hfind
    refine follows_self hsame fun other hother position hfind' => ?_
    obtain rfl := mem_singleton.1 hother
    rw [hfind] at hfind'
    contradiction

theorem follows_noteAll (hsound : heap.Sound) (hsame : heap.Remarked marking.heap) (words : List UInt64) :
    Follows heap words marking (marking.noteAll words) := by
  induction words generalizing marking with
  | nil => exact follows_self hsame (by simp)
  | cons word rest ih =>
    have hfirst := follows_note hsound hsame word
    exact hfirst.trans (ih hfirst.same)

/-! ### The loop -/

/-- The words of the block at a position. -/
def contents (heap : Heap) (position : Nat) : List UInt64 := (heap.blocks.getD position default).words.toList

/-- What is marked is reached, and what is marked and does not wait has been looked into. -/
structure Exact (heap : Heap) (roots : List UInt64) (marking : Marking) : Prop where
  same : heap.Remarked marking.heap
  sound : ∀ position, marking.Marked position → ∃ block, heap.blocks[position]? = some block ∧ heap.Reached roots block
  waits : ∀ position ∈ marking.pending, marking.Marked position
  roots : ∀ word ∈ roots, ∀ position, heap.find? word = some position → marking.Marked position
  closed : ∀ position, marking.Marked position → position ∉ marking.pending →
    ∀ word ∈ contents heap position, ∀ other, heap.find? word = some other → marking.Marked other

theorem exact_start (hsound : heap.Sound) : Exact heap roots ((Marking.mk heap []).noteAll roots) := by
  have hunmarked (position : Nat) : ¬ (Marking.mk heap []).Marked position := by
    intro hmarked
    obtain ⟨block, hblock, hmarked⟩ := Option.map_eq_some_iff.1 hmarked
    rw [(hsound.placed block (Array.mem_of_getElem? hblock)).unmarked] at hmarked
    contradiction
  have hfollows := @follows_noteAll heap ⟨heap, []⟩ hsound hsound.remarked_self roots
  refine ⟨hfollows.same, ?_, ?_, hfollows.marks, ?_⟩
  · intro position hmarked
    obtain ⟨word, hword, hfind⟩ := (hfollows.only position hmarked).resolve_left (hunmarked position)
    obtain ⟨block, hblock, hrefers⟩ := hsound.find?_eq_some.1 hfind
    exact ⟨block, hblock, .root hword hrefers⟩
  · exact fun position hwaits => (hfollows.waits position hwaits).resolve_left not_mem_nil
  · exact fun position hmarked hsettled => absurd (hfollows.settled position hmarked hsettled).1 (hunmarked position)

variable {block : Block}

theorem mem_words_iff (hplaced : block.Placed) (hword : word ≠ 0) :
    word ∈ block.words.toList ↔ ∃ position < block.wordCount, block.read position = word := by
  constructor
  · intro hmem
    obtain ⟨position, hposition⟩ := Array.mem_iff_getElem?.1 (Array.mem_toList_iff.1 hmem)
    obtain ⟨hinside, -⟩ := Array.getElem?_eq_some_iff.1 hposition
    refine ⟨position, Nat.lt_of_lt_of_le hinside hplaced.words, ?_⟩
    rw [Block.read, Array.getD_eq_getD_getElem?, hposition]
    rfl
  · rintro ⟨position, -, hread⟩
    rw [Block.read, Array.getD_eq_getD_getElem?] at hread
    cases hposition : block.words[position]? with
    | none =>
      rw [hposition] at hread
      exact absurd hread.symm hword
    | some found =>
      rw [hposition] at hread
      exact Array.mem_toList_iff.2 (Array.mem_of_getElem? (hposition.trans (congrArg some hread)))

theorem ne_zero_of_refers (hrefers : heap.Refers word block) : word ≠ 0 := by
  rintro rfl
  exact hrefers.nonzero rfl

theorem contents_eq (hblock : heap.blocks[position]? = some block) : contents heap position = block.words.toList := by
  rw [contents, Array.getD_eq_getD_getElem?, hblock]
  rfl

theorem contents_remarked {other : Heap} (hsame : heap.Remarked other) (position : Nat) :
    contents other position = contents heap position := by
  rw [contents, contents, Array.getD_eq_getD_getElem?, Array.getD_eq_getD_getElem?, hsame.getElem?_eq]
  cases other.blocks[position]? <;> rfl

/-- The next block that waits is looked into. -/
theorem Exact.step (hsound : heap.Sound) (hexact : Exact heap roots marking) {rest : List Nat}
    (hpending : marking.pending = position :: rest) :
    Exact heap roots (noteAll { marking with pending := rest } (contents marking.heap position)) := by
  rw [contents_remarked hexact.same]
  have hfollows := @follows_noteAll heap { marking with pending := rest } hsound hexact.same (contents heap position)
  have hhere : marking.Marked position := hexact.waits position (hpending ▸ mem_cons_self)
  refine ⟨hfollows.same, ?_, ?_, ?_, ?_⟩
  · intro other hmarked
    rcases hfollows.only other hmarked with hmarked | ⟨word, hword, hfind⟩
    · exact hexact.sound other hmarked
    · obtain ⟨outer, houter, hreached⟩ := hexact.sound position hhere
      obtain ⟨block, hblock, hrefers⟩ := hsound.find?_eq_some.1 hfind
      rw [contents_eq houter] at hword
      obtain ⟨spot, hspot, rfl⟩ := (mem_words_iff (hsound.placed outer (Array.mem_of_getElem? houter))
        (ne_zero_of_refers hrefers)).1 hword
      exact ⟨block, hblock, .inside hreached hspot hrefers⟩
  · intro other hwaits
    rcases hfollows.waits other hwaits with hwaits | hmarked
    · exact hfollows.keeps other (hexact.waits other (hpending ▸ mem_cons_of_mem _ hwaits))
    · exact hmarked
  · exact fun word hword other hfind => hfollows.keeps other (hexact.roots word hword other hfind)
  · intro other hmarked hsettled word hword target hfind
    obtain ⟨hmarked, hsettled⟩ := hfollows.settled other hmarked hsettled
    by_cases hother : other = position
    · subst hother
      exact hfollows.marks word hword target hfind
    · refine hfollows.keeps target (hexact.closed other hmarked ?_ word hword target hfind)
      rw [hpending]
      exact fun hmem => (mem_cons.1 hmem).elim hother hsettled

theorem Exact.drain (hsound : heap.Sound) (hexact : Exact heap roots marking) : Exact heap roots ⟨marking.drain, []⟩ := by
  fun_induction Marking.drain marking with
  | case1 marking hpending => exact hpending ▸ hexact
  | case2 marking position rest hpending ih => exact ih (hexact.step hsound hpending)

/-- All that is reached is marked, once nothing waits. -/
theorem Exact.complete (hsound : heap.Sound) (hexact : Exact heap roots marking) (hpending : marking.pending = [])
    (hreached : heap.Reached roots block) :
    ∃ position, heap.blocks[position]? = some block ∧ marking.Marked position := by
  have hfound {word : UInt64} {block : Block} (hrefers : heap.Refers word block) :
      ∃ position, heap.blocks[position]? = some block ∧ heap.find? word = some position := by
    obtain ⟨position, hposition⟩ := Array.mem_iff_getElem?.1 hrefers.mem
    exact ⟨position, hposition, hsound.find?_eq_some.2 ⟨block, hposition, hrefers⟩⟩
  induction hreached with
  | root hword hrefers =>
    obtain ⟨position, hposition, hfind⟩ := hfound hrefers
    exact ⟨position, hposition, hexact.roots _ hword position hfind⟩
  | @inside outer block spot _ hspot hrefers ih =>
    obtain ⟨place, hplace, hmarked⟩ := ih
    obtain ⟨position, hposition, hfind⟩ := hfound hrefers
    have hword : outer.read spot ∈ contents heap place := by
      rw [contents_eq hplace]
      exact (mem_words_iff (hsound.placed outer (Array.mem_of_getElem? hplace)) (ne_zero_of_refers hrefers)).2 ⟨spot, hspot, rfl⟩
    exact ⟨position, hposition, hexact.closed place hmarked (hpending ▸ not_mem_nil) _ hword position hfind⟩

end Marking

open Classical in
/-- Marking sets the marks of the blocks that are reached. -/
theorem Sound.mark_eq (hsound : heap.Sound) (roots : List UInt64) :
    heap.mark roots =
      { heap with blocks := heap.blocks.map fun block => { block with marked := decide (heap.Reached roots block) } } := by
  have hexact : Marking.Exact heap roots ⟨heap.mark roots, []⟩ := (Marking.exact_start hsound).drain hsound
  have hblocks : (heap.mark roots).blocks =
      heap.blocks.map fun block => { block with marked := decide (heap.Reached roots block) } := by
    refine Array.ext_getElem? fun position => ?_
    have hsame := hexact.same.getElem?_eq position
    rw [Array.getElem?_map, hsame]
    cases hmarked : (heap.mark roots).blocks[position]? with
    | none => rfl
    | some marked =>
      rw [hmarked, Option.map_some] at hsame
      suffices hiff : marked.marked = true ↔ heap.Reached roots marked.unmark by
        rw [Option.map_some, Option.map_some, ← Bool.eq_iff_iff.2 (hiff.trans decide_eq_true_iff.symm)]
        rfl
      constructor
      · intro hmark
        have hhere : (heap.mark roots).blocks[position]?.map Block.marked = some true := by
          rw [hmarked, Option.map_some, hmark]
        obtain ⟨block, hblock, hreached⟩ := hexact.sound position hhere
        rwa [Option.some.inj (hsame.symm.trans hblock)]
      · intro hreached
        obtain ⟨other, hother, hmark⟩ := hexact.complete hsound rfl hreached
        obtain rfl := hsound.position_unique hsame hother
        rw [Marking.Marked, hmarked] at hmark
        exact Option.some.inj hmark
  rw [← hblocks]
  exact congrArg (fun base : Heap => { base with blocks := (heap.mark roots).blocks }) hexact.same.rest

end NanScript.Heap

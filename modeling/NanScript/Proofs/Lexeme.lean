import NanScript.Proofs.Token

/-!
# Lexemes

`Cuts text kind rest` says, class by class, which characters are one token of a kind and what may follow them. It is the rule
that `cut` computes: `cuts_of_cut` and `Cuts.cut`. What follows matters by its first two characters only, and a blank, or the end
of the text, may follow every lexeme.
-/

namespace NanScript

open List

variable {cursor : Cursor}

namespace Lexer

/-! ### Classes of characters -/

/-- A text that a name can be spelled with. -/
def IsName : List Char → Prop
  | [] => False
  | first :: more => isNameStart first = true ∧ ∀ c ∈ more, isNamePart c = true

instance : (chars : List Char) → Decidable (IsName chars)
  | [] => inferInstanceAs (Decidable False)
  | first :: more => decidable_of_iff (isNameStart first = true ∧ more.all isNamePart = true) (and_congr_right fun _ => all_eq_true)

def isRadixDigit (mark : Char) : Char → Bool :=
  if mark = 'x' ∨ mark = 'X' then isHexDigit else if mark = 'b' ∨ mark = 'B' then isBinaryDigit else fun _ => false

/-- What stands between the quotes of a string: a quote or a backslash only behind a backslash. -/
inductive StringBody : List Char → Prop
  | nil : StringBody []
  | plain {c : Char} {rest : List Char} : c ≠ '"' → c ≠ '\\' → StringBody rest → StringBody (c :: rest)
  | escape {c : Char} {rest : List Char} : StringBody rest → StringBody ('\\' :: c :: rest)

def signs : List TokenKind :=
  [.lparen, .rparen, .lbrace, .rbrace, .lbracket, .rbracket, .semicolon, .comma, .dot, .colon, .question, .plus, .minus, .star,
    .slash, .percent, .eq, .eqEq, .notEq, .lt, .ltEq, .gt, .gtEq, .andAnd, .orOr, .bang, .arrow, .plusEq, .minusEq, .starEq, .slashEq]

/-- The characters that make another sign, or a comment, of a sign. -/
def joins : TokenKind → List Char
  | .plus | .star | .eq | .bang | .lt | .gt => ['=']
  | .minus => ['=', '>']
  | .slash => ['=', '/', '*']
  | _ => []

/-- A text does not begin with a character of a class. -/
def Stops (part : Char → Bool) (rest : List Char) : Prop := ∀ c ∈ rest.head?, part c = false

/-- In front of `rest`, the characters `text` are a token of a kind. -/
inductive Cuts : List Char → TokenKind → List Char → Prop
  | name {text rest : List Char} : IsName text → Stops isNamePart rest →
      Cuts text ((TokenKind.ofKeyword? (String.ofList text)).getD .identifier) rest
  | radix {mark : Char} {digits rest : List Char} : digits ≠ [] → (∀ c ∈ digits, isRadixDigit mark c = true) →
      Stops (isRadixDigit mark) rest → Cuts ('0' :: mark :: digits) .number rest
  | whole {digits rest : List Char} : digits ≠ [] → (∀ c ∈ digits, c.isDigit = true) → Stops Char.isDigit rest →
      (∀ first second more, rest = first :: second :: more →
        (first = '.' → second.isDigit = false) ∧ (digits = ['0'] → isRadixDigit first second = false)) →
      Cuts digits .number rest
  | float {whole fraction rest : List Char} : whole ≠ [] → fraction ≠ [] → (∀ c ∈ whole, c.isDigit = true) →
      (∀ c ∈ fraction, c.isDigit = true) → Stops Char.isDigit rest → Cuts (whole ++ '.' :: fraction) .float rest
  | string {body rest : List Char} : StringBody body → Cuts ('"' :: (body ++ ['"'])) .string rest
  | sign {kind : TokenKind} {rest : List Char} : kind ∈ signs → Stops (joins kind).contains rest →
      Cuts kind.display.toList kind rest

variable {text rest : List Char} {kind : TokenKind}

theorem Cuts.blank {rest' : List Char} (hcuts : Cuts text kind rest) (hblank : ∀ c ∈ rest'.head?, c = ' ') :
    Cuts text kind rest' := by
  have hstops {part : Char → Bool} (hpart : part ' ' = false) : Stops part rest' := fun c hc => hblank c hc ▸ hpart
  have hradix (mark : Char) : isRadixDigit mark ' ' = false := by
    unfold isRadixDigit
    split
    · decide
    · split <;> decide
  cases hcuts with
  | name hname _ => exact .name hname (hstops (by decide))
  | radix hnonempty hdigits _ => exact .radix hnonempty hdigits (hstops (hradix _))
  | whole hnonempty hdigits _ _ =>
    refine .whole hnonempty hdigits (hstops (by decide)) ?_
    rintro first second more rfl
    obtain rfl := hblank first rfl
    exact ⟨nofun, fun _ => rfl⟩
  | float hwhole hfraction hdigits hdigits' _ => exact .float hwhole hfraction hdigits hdigits' (hstops (by decide))
  | string hbody => exact .string hbody
  | sign hsign _ =>
    refine .sign hsign (hstops ?_)
    revert hsign
    cases kind <;> decide

/-! ### Scanning a class -/

theorem exists_stops (part : Char → Bool) (text : List Char) :
    ∃ front behind, text = front ++ behind ∧ (∀ c ∈ front, part c = true) ∧ Stops part behind := by
  refine ⟨_, _, (@takeWhile_append_dropWhile _ part text).symm, all_eq_true.1 all_takeWhile, fun c hc => ?_⟩
  have hhead := head?_dropWhile_not part text
  rw [Option.mem_def.1 hc] at hhead
  exact hhead

theorem takeWhile_stops {part : Char → Bool} {front : List Char} (hfront : ∀ c ∈ front, part c = true)
    (hrest : Stops part rest) : (front ++ rest).takeWhile part = front ∧ (front ++ rest).dropWhile part = rest := by
  rw [takeWhile_append_of_pos hfront, dropWhile_append_of_pos hfront]
  cases rest with
  | nil => simp
  | cons c more => simp [hrest c rfl]

variable {first : Char}

theorem skip_blank (hfirst : first ∉ [' ', '\t', '\r', '\n', '/']) (rest : List Char) :
    skip .blank (first :: rest) = first :: rest := by
  simp only [mem_cons, not_mem_nil, or_false, not_or] at hfirst
  unfold skip
  split <;> simp_all

theorem skip_skip (gap : Gap) (text : List Char) : skip .blank (skip gap text) = skip gap text := by
  fun_induction skip gap text with
  | case7 => rw [skip] <;> assumption
  | case8 | case11 => rfl
  | _ => assumption

theorem skip_of_class {part : Char → Bool} (hpart : [' ', '\t', '\r', '\n', '/'].all (!part ·) = true)
    (hfirst : part first = true) (rest : List Char) : skip .blank (first :: rest) = first :: rest := by
  refine skip_blank (fun hblank => ?_) rest
  have hother := all_eq_true.1 hpart first hblank
  rw [hfirst] at hother
  contradiction

theorem isDigit_of_isNameStart {c : Char} (hc : isNameStart c = true) : c.isDigit = false := by
  have hstart : isNameStart c = ((decide ('A'.val ≤ c.val ∧ c.val ≤ 'Z'.val) || (decide ('a'.val ≤ c.val) && decide (c.val ≤ 'z'.val))) ||
      c == '_') := rfl
  simp only [hstart, Char.isDigit, Bool.or_eq_true, Bool.and_eq_true, decide_eq_true_eq, beq_iff_eq, Bool.and_eq_false_imp,
    decide_eq_false_iff_not] at hc ⊢
  rintro hlow hhigh
  rcases hc with (⟨hupper, -⟩ | ⟨hlower, -⟩) | rfl
  · exact absurd (UInt32.le_trans hupper hhigh) (by decide)
  · exact absurd (UInt32.le_trans hlower hhigh) (by decide)
  · exact absurd hhigh (by decide)

theorem not_isNameStart_of_isDigit {c : Char} (hc : c.isDigit = true) : ¬ isNameStart c = true := by
  intro hname
  rw [isDigit_of_isNameStart hname] at hc
  contradiction

/-! ### Strings -/

theorem StringBody.closeString {body : List Char} (hbody : StringBody body) (rest : List Char) (count : Nat) :
    closeString (body ++ '"' :: rest) count = some (count + body.length + 1) := by
  induction hbody generalizing count with
  | nil => rfl
  | plain hquote hbackslash _ ih =>
    rw [cons_append, Lexer.closeString.eq_def]
    split <;> simp_all
    omega
  | escape _ ih =>
    simp only [cons_append, Lexer.closeString, ih, length_cons]
    congr 1
    omega

variable {count : Nat}

theorem stringBody_of_closeString {close : Nat} (hclose : closeString text count = some close) :
    ∃ body rest, text = body ++ '"' :: rest ∧ close = count + body.length + 1 ∧ StringBody body := by
  fun_induction closeString text count with
  | case1 | case3 => contradiction
  | case2 rest count => exact ⟨[], rest, rfl, (Option.some.inj hclose).symm, .nil⟩
  | case4 c rest count ih =>
    obtain ⟨body, behind, rfl, rfl, hbody⟩ := ih hclose
    exact ⟨'\\' :: c :: body, behind, rfl, by simp only [length_cons]; omega, .escape hbody⟩
  | case5 c rest count hquote hend hbackslash ih =>
    obtain ⟨body, behind, rfl, rfl, hbody⟩ := ih hclose
    refine ⟨c :: body, behind, rfl, by simp only [length_cons]; omega, .plain hquote ?_ hbody⟩
    rintro rfl
    cases body with
    | nil => exact hbackslash _ _ rfl rfl
    | cons c body => exact hbackslash _ _ rfl rfl

/-! ### Numbers -/

theorem isRadixDigit_of_isDigit {mark : Char} (hmark : mark.isDigit = true) (digit : Char) : isRadixDigit mark digit = false := by
  unfold isRadixDigit
  split
  · next hhex => rcases hhex with rfl | rfl <;> exact absurd hmark (by decide)
  · split
    · next hbinary => rcases hbinary with rfl | rfl <;> exact absurd hmark (by decide)
    · rfl

theorem cutNumber_zero (mark digit : Char) (more : List Char) :
    cutNumber '0' (mark :: digit :: more) = if isRadixDigit mark digit then
      (2 + ((digit :: more).takeWhile (isRadixDigit mark)).length, .number) else cutNumber.decimal (mark :: digit :: more) := by
  by_cases hhex : mark = 'x' ∨ mark = 'X'
  · have hother : ¬(mark = 'b' ∨ mark = 'B') := by
      rintro (rfl | rfl) <;> revert hhex <;> decide
    simp only [cutNumber, isRadixDigit, hhex, hother, if_true, Bool.or_eq_true, beq_iff_eq, Bool.and_eq_true, true_and, false_and,
      if_false]
  · by_cases hbinary : mark = 'b' ∨ mark = 'B'
    · simp only [cutNumber, isRadixDigit, hhex, hbinary, if_true, Bool.or_eq_true, beq_iff_eq, Bool.and_eq_true, true_and, false_and,
        if_false]
    · simp [cutNumber, isRadixDigit, hhex, hbinary]

theorem cutNumber_decimal
    (hmark : ∀ mark digit more, first = '0' → rest = mark :: digit :: more → isRadixDigit mark digit = false) :
    cutNumber first rest = cutNumber.decimal rest := by
  unfold cutNumber
  split
  · next mark digit more =>
    have hzero := cutNumber_zero mark digit more
    rw [hmark mark digit more rfl rfl] at hzero
    exact hzero
  · rfl

theorem decimal_whole {more : List Char} (hmore : ∀ c ∈ more, c.isDigit = true) (hstops : Stops Char.isDigit rest)
    (hpoint : ∀ digit others, rest = '.' :: digit :: others → digit.isDigit = false) :
    cutNumber.decimal (more ++ rest) = (more.length + 1, .number) := by
  obtain ⟨htake, hdrop⟩ := takeWhile_stops hmore hstops
  unfold cutNumber.decimal
  rw [htake, hdrop, Nat.add_comm]
  dsimp only
  split
  · next digit others =>
    rw [hpoint digit others rfl]
    rfl
  · rfl

theorem decimal_float {more fraction : List Char} (hmore : ∀ c ∈ more, c.isDigit = true) (hnonempty : fraction ≠ [])
    (hfraction : ∀ c ∈ fraction, c.isDigit = true) (hstops : Stops Char.isDigit rest) :
    cutNumber.decimal (more ++ '.' :: fraction ++ rest) = (more.length + 1 + fraction.length + 1, .float) := by
  obtain ⟨htake, hdrop⟩ := @takeWhile_stops ('.' :: fraction ++ rest) _ _ hmore (by rintro _ ⟨⟩; decide)
  obtain ⟨digit, others, rfl⟩ := exists_cons_of_ne_nil hnonempty
  have hdigits := (takeWhile_stops hfraction hstops).1
  unfold cutNumber.decimal
  rw [append_assoc, htake, hdrop]
  simp only [cons_append] at hdigits ⊢
  rw [if_pos (hfraction digit mem_cons_self), hdigits]
  simp only [length_cons, Prod.mk.injEq, and_true]
  omega

theorem cuts_decimal (hfirst : first.isDigit = true)
    (hmark : ∀ mark digit more, first = '0' → rest = mark :: digit :: more → isRadixDigit mark digit = false) :
    ∃ more behind, rest = more ++ behind ∧ (cutNumber.decimal rest).1 = more.length + 1 ∧
      Cuts (first :: more) (cutNumber.decimal rest).2 behind := by
  obtain ⟨more, behind, rfl, hmore, hstops⟩ := exists_stops Char.isDigit rest
  have hwhole : ∀ c ∈ first :: more, c.isDigit = true := forall_mem_cons.2 ⟨hfirst, hmore⟩
  by_cases hpoint : ∃ digit others, behind = '.' :: digit :: others ∧ digit.isDigit = true
  · obtain ⟨digit, others, rfl, hdigit⟩ := hpoint
    obtain ⟨fraction, behind, hothers, hfraction, hstops'⟩ := exists_stops Char.isDigit (digit :: others)
    have hnonempty : fraction ≠ [] := by
      rintro rfl
      have hstop := hstops' digit (by rw [← nil_append behind, ← hothers]; rfl)
      exact Bool.noConfusion (hdigit.symm.trans hstop)
    have htext : more ++ '.' :: digit :: others = more ++ '.' :: fraction ++ behind := by rw [hothers]; simp
    refine ⟨more ++ '.' :: fraction, behind, htext, ?_, ?_⟩ <;> rw [htext, decimal_float hmore hnonempty hfraction hstops']
    · simp only [length_append, length_cons]
      omega
    · exact .float (cons_ne_nil _ _) hnonempty hwhole hfraction hstops'
  · have hpoint' : ∀ digit others, behind = '.' :: digit :: others → digit.isDigit = false := by
      intro digit others hbehind
      exact Bool.eq_false_iff.2 fun hdigit => hpoint ⟨digit, others, hbehind, hdigit⟩
    refine ⟨more, behind, rfl, ?_, ?_⟩ <;> rw [decimal_whole hmore hstops hpoint']
    refine .whole (cons_ne_nil _ _) hwhole hstops ?_
    rintro mark digit others rfl
    refine ⟨?_, ?_⟩
    · rintro rfl
      exact hpoint' _ _ rfl
    · intro hzero
      obtain ⟨rfl, rfl⟩ := cons.inj hzero
      exact hmark mark digit others rfl rfl

theorem cuts_of_cutNumber (hfirst : first.isDigit = true) :
    ∃ more behind, rest = more ++ behind ∧ (cutNumber first rest).1 = more.length + 1 ∧
      Cuts (first :: more) (cutNumber first rest).2 behind := by
  by_cases hradix : ∃ mark digit more, first = '0' ∧ rest = mark :: digit :: more ∧ isRadixDigit mark digit = true
  · obtain ⟨mark, digit, more, rfl, rfl, hdigit⟩ := hradix
    obtain ⟨digits, behind, hmore, hdigits, hstops⟩ := exists_stops (isRadixDigit mark) more
    have hall : ∀ c ∈ digit :: digits, isRadixDigit mark c = true := forall_mem_cons.2 ⟨hdigit, hdigits⟩
    rw [cutNumber_zero, hdigit, hmore, ← cons_append, (takeWhile_stops hall hstops).1]
    refine ⟨mark :: digit :: digits, behind, rfl, ?_, .radix (cons_ne_nil _ _) hall hstops⟩
    simp only [if_true, length_cons]
    omega
  · have hmark : ∀ mark digit more, first = '0' → rest = mark :: digit :: more → isRadixDigit mark digit = false := by
      intro mark digit more hzero hrest
      exact Bool.eq_false_iff.2 fun hdigit => hradix ⟨mark, digit, more, hzero, hrest, hdigit⟩
    rw [cutNumber_decimal hmark]
    exact cuts_decimal hfirst hmark

/-! ### The rule is what is computed -/

theorem cuts_of_single {kind' : TokenKind} (hsign : kind ∈ signs ∧ kind.display.toList = [first] ∧ joins kind = [])
    (hcut : (1, Except.ok kind) = (count, (.ok kind' : Verdict))) :
    ∃ more behind, rest = more ++ behind ∧ count = more.length + 1 ∧ Cuts (first :: more) kind' behind := by
  obtain ⟨rfl, hkind⟩ := Prod.mk.inj hcut
  obtain rfl := Except.ok.inj hkind
  refine ⟨[], rest, rfl, rfl, hsign.2.1 ▸ .sign hsign.1 fun _ _ => ?_⟩
  rw [hsign.2.2]
  rfl

theorem cuts_of_cutPair {second : Char} (others : List Char) {pair single : Verdict}
    (hpair : ∀ kind, pair = .ok kind → kind ∈ signs ∧ kind.display.toList = [first, second] ∧ joins kind = [])
    (hsingle : ∀ kind, single = .ok kind → kind ∈ signs ∧ kind.display.toList = [first] ∧ joins kind = second :: others)
    (hothers : Stops others.contains rest) (hcut : cutPair second pair single rest = (count, .ok kind)) :
    ∃ more behind, rest = more ++ behind ∧ count = more.length + 1 ∧ Cuts (first :: more) kind behind := by
  have hone (hstops : Stops (· == second) rest) (hkind : single = .ok kind) : Cuts [first] kind rest := by
    obtain ⟨hsign, htext, hjoins⟩ := hsingle kind hkind
    refine htext ▸ .sign hsign fun c hc => ?_
    have hother := hstops c hc
    rw [hjoins, contains_cons, hothers c hc, Bool.or_false]
    exact hother
  unfold cutPair at hcut
  split at hcut
  · next c more =>
    split at hcut
    · next hsecond =>
      obtain ⟨rfl, hkind⟩ := Prod.mk.inj hcut
      obtain ⟨hsign, htext, hjoins⟩ := hpair kind hkind
      obtain rfl : c = second := by simpa using hsecond
      refine ⟨[c], more, rfl, rfl, htext ▸ .sign hsign fun _ _ => ?_⟩
      rw [hjoins]
      rfl
    · next hother =>
      obtain ⟨rfl, hkind⟩ := Prod.mk.inj hcut
      exact ⟨[], _, rfl, rfl, hone (by rintro _ ⟨⟩; simpa using hother) hkind⟩
  · obtain ⟨rfl, hkind⟩ := Prod.mk.inj hcut
    exact ⟨[], [], rfl, rfl, hone nofun hkind⟩

/-- A slash that is no trivia begins no comment. -/
theorem stops_slash (hskip : skip .blank ('/' :: rest) = '/' :: rest) : Stops ['/', '*'].contains rest := by
  have hlonger (gap : Gap) (c : Char) (text : List Char) : skip gap text ≠ '/' :: c :: text := by
    intro hsame
    have hle := length_skip_le gap text
    rw [hsame, length_cons, length_cons] at hle
    omega
  rintro c hc
  cases rest with
  | nil => contradiction
  | cons first more =>
    obtain rfl := Option.some.inj hc
    refine Bool.eq_false_iff.2 fun hcomment => ?_
    simp only [contains_cons, contains_nil, Bool.or_false, Bool.or_eq_true, beq_iff_eq] at hcomment
    rcases hcomment with rfl | rfl
    · exact hlonger .lineComment '/' more (by rwa [skip] at hskip)
    · exact hlonger .blockComment '*' more (by rwa [skip] at hskip)

/-- What is cut off is a lexeme, in front of what cannot belong to it. -/
theorem cuts_of_cut (hskip : skip .blank (first :: rest) = first :: rest) (hcut : cut first rest = (count, .ok kind)) :
    ∃ more behind, rest = more ++ behind ∧ count = more.length + 1 ∧ Cuts (first :: more) kind behind := by
  unfold cut at hcut
  split at hcut
  · next hname =>
    obtain ⟨more, behind, rfl, hmore, hstops⟩ := exists_stops isNamePart rest
    rw [(takeWhile_stops hmore hstops).1] at hcut
    obtain ⟨rfl, hkind⟩ := Prod.mk.inj hcut
    obtain rfl := Except.ok.inj hkind
    exact ⟨more, behind, rfl, rfl, .name ⟨hname, hmore⟩ hstops⟩
  · split at hcut
    · next hdigit =>
      obtain ⟨more, behind, hrest, hcount, hcuts⟩ := @cuts_of_cutNumber rest first hdigit
      obtain ⟨rfl, hkind⟩ := Prod.mk.inj hcut
      obtain rfl := Except.ok.inj hkind
      exact ⟨more, behind, hrest, hcount, hcuts⟩
    · split at hcut
      · split at hcut
        · next close hclose =>
          obtain ⟨body, behind, rfl, rfl, hbody⟩ := stringBody_of_closeString hclose
          obtain ⟨rfl, hkind⟩ := Prod.mk.inj hcut
          obtain rfl := Except.ok.inj hkind
          exact ⟨body ++ ['"'], behind, by simp, by simp; omega, .string hbody⟩
        · simp at hcut
      all_goals first
        | exact cuts_of_cutPair [] (by rintro _ ⟨⟩; decide) (by rintro _ ⟨⟩; decide) (fun _ _ => rfl) hcut
        | exact cuts_of_single (by decide) hcut
        | skip
      · exact cuts_of_cutPair ['/', '*'] (by rintro _ ⟨⟩; decide) (by rintro _ ⟨⟩; decide) (stops_slash hskip) hcut
      · split at hcut
        · next more =>
          obtain ⟨rfl, hkind⟩ := Prod.mk.inj hcut
          obtain rfl := Except.ok.inj hkind
          exact ⟨['>'], more, rfl, rfl, @Cuts.sign .arrow _ (by decide) fun _ _ => rfl⟩
        · next hplain =>
          refine cuts_of_cutPair ['>'] (by rintro _ ⟨⟩; decide) (by rintro _ ⟨⟩; decide) (fun c hc => ?_) hcut
          cases rest with
          | nil => contradiction
          | cons first more =>
            obtain rfl := Option.some.inj hc
            have harrow : first ≠ '>' := fun hfirst => hplain more (by rw [hfirst])
            simp [harrow]
      · exact cuts_of_cutPair [] (by rintro _ ⟨⟩; decide) (by rintro _ ⟨⟩) (fun _ _ => rfl) hcut
      · exact cuts_of_cutPair [] (by rintro _ ⟨⟩; decide) (by rintro _ ⟨⟩) (fun _ _ => rfl) hcut
      · simp at hcut

/-- A lexeme in front of what cannot belong to it is cut off. -/
theorem Cuts.cut (hcuts : Cuts text kind rest) : ∃ first more, text = first :: more ∧
    skip .blank (text ++ rest) = text ++ rest ∧ Lexer.cut first (more ++ rest) = (more.length + 1, .ok kind) := by
  have hnumber {first : Char} {more : List Char} (hfirst : first.isDigit = true)
      (hcut : cutNumber first (more ++ rest) = (more.length + 1, kind)) :
      skip .blank (first :: more ++ rest) = first :: more ++ rest ∧
        Lexer.cut first (more ++ rest) = (more.length + 1, .ok kind) := by
    refine ⟨skip_of_class (by decide) hfirst _, ?_⟩
    unfold Lexer.cut
    rw [if_neg (not_isNameStart_of_isDigit hfirst), if_pos hfirst, hcut]
  cases hcuts with
  | name hname hstops =>
    match text, hname with
    | first :: more, ⟨hfirst, hmore⟩ =>
      refine ⟨first, more, rfl, skip_of_class (by decide) hfirst _, ?_⟩
      unfold Lexer.cut
      rw [if_pos hfirst, (takeWhile_stops hmore hstops).1]
      rfl
  | @radix mark digits _ hnonempty hdigits hstops =>
    obtain ⟨digit, others, rfl⟩ := exists_cons_of_ne_nil hnonempty
    refine ⟨'0', mark :: digit :: others, rfl, hnumber (by decide) ?_⟩
    have htake := (takeWhile_stops hdigits hstops).1
    rw [cons_append, cons_append, cutNumber_zero, if_pos (hdigits digit mem_cons_self), ← cons_append, htake]
    simp only [length_cons, Prod.mk.injEq, and_true]
    omega
  | whole hnonempty hdigits hstops hfollow =>
    obtain ⟨first, more, rfl⟩ := exists_cons_of_ne_nil hnonempty
    obtain ⟨hfirst, hmore⟩ := forall_mem_cons.1 hdigits
    refine ⟨first, more, rfl, hnumber hfirst ?_⟩
    rw [cutNumber_decimal, decimal_whole hmore hstops fun digit others hrest => (hfollow _ _ _ hrest).1 rfl]
    rintro mark digit others rfl hrest
    cases more with
    | nil => exact (hfollow mark digit others hrest).2 rfl
    | cons c more =>
      obtain ⟨rfl, -⟩ := cons.inj hrest
      exact isRadixDigit_of_isDigit (hmore c mem_cons_self) digit
  | @float whole fraction _ hwhole hfraction hdigits hdigits' hstops =>
    obtain ⟨first, more, rfl⟩ := exists_cons_of_ne_nil hwhole
    obtain ⟨hfirst, hmore⟩ := forall_mem_cons.1 hdigits
    refine ⟨first, more ++ '.' :: fraction, rfl, @hnumber first (more ++ '.' :: fraction) hfirst ?_⟩
    rw [cutNumber_decimal, decimal_float hmore hfraction hdigits' hstops]
    · simp only [length_append, length_cons, Prod.mk.injEq, and_true]
      omega
    · rintro mark digit others rfl hrest
      cases more with
      | nil => exact (cons.inj hrest).1 ▸ rfl
      | cons c more =>
        obtain ⟨rfl, -⟩ := cons.inj hrest
        exact isRadixDigit_of_isDigit (hmore c mem_cons_self) digit
  | string hbody =>
    refine ⟨'"', _, rfl, rfl, ?_⟩
    unfold Lexer.cut
    rw [if_neg (by decide), if_neg (by decide), append_assoc, singleton_append, hbody.closeString]
    simp [Nat.add_comm]
  | sign hsign hstops =>
    have hpair {second : Char} {pair single : Verdict} (hsecond : (joins kind).contains second = true) :
        cutPair second pair single rest = (1, single) := by
      unfold cutPair
      split
      · next c more =>
        refine if_neg fun hc => ?_
        have hstop := hstops c rfl
        rw [beq_iff_eq.1 hc, hsecond] at hstop
        contradiction
      · rfl
    cases kind
    all_goals first
      | exact absurd hsign (by decide)
      | exact ⟨_, _, rfl, rfl, rfl⟩
      | exact ⟨_, _, rfl, rfl, hpair (by decide)⟩
      | skip
    case minus =>
      refine ⟨'-', [], rfl, rfl, ?_⟩
      unfold Lexer.cut
      simp only [show isNameStart '-' = false by decide, show Char.isDigit '-' = false by decide, Bool.false_eq_true, if_false]
      split
      · next hrest => exact absurd (hstops '>' (congrArg head? hrest)) (by decide)
      · exact hpair (by decide)
    case slash =>
      refine ⟨'/', [], rfl, ?_, hpair (by decide)⟩
      show skip .blank ('/' :: rest) = '/' :: rest
      rw [skip] <;> rintro _ ⟨⟩
      · exact absurd (hstops '/' rfl) (by decide)
      · exact absurd (hstops '*' rfl) (by decide)

end Lexer

/-! ### Spellings -/

/-- What a token is, whatever its line. -/
def Token.spelling (token : Token) : TokenKind × String := (token.kind, token.lexeme)

namespace Cursor

theorem spelling_scan_line (cursor : Cursor) (line : Nat) :
    cursor.scan.1.spelling = (Cursor.mk cursor.rest line).scan.1.spelling ∧
      cursor.scan.2.rest = (Cursor.mk cursor.rest line).scan.2.rest := by
  unfold scan
  dsimp only
  split
  · exact ⟨rfl, rfl⟩
  · refine ⟨?_, rfl⟩
    unfold Lexer.Verdict.token
    split <;> rfl

theorem tokens_of_skip_eq_nil (hread : cursor.skipTrivia.rest = []) : cursor.tokens = [cursor.next.1] := by
  rw [tokens]
  exact if_pos hread

theorem tokens_of_skip_ne_nil (hunread : cursor.skipTrivia.rest ≠ []) :
    cursor.tokens = cursor.next.1 :: cursor.next.2.tokens := by
  rw [tokens]
  exact if_neg hunread

/-- Lines do not matter for what the tokens are. -/
theorem spelling_tokens_line (cursor : Cursor) (line : Nat) :
    cursor.tokens.map Token.spelling = (Cursor.mk cursor.rest line).tokens.map Token.spelling := by
  fun_induction tokens cursor generalizing line with
  | case1 cursor start hread =>
    rw [@tokens_of_skip_eq_nil ⟨cursor.rest, line⟩ hread]
    exact congrArg (fun spelling => [spelling]) (start.spelling_scan_line _).1
  | case2 cursor start hunread ih =>
    have hstep := start.spelling_scan_line (Lexer.skipLine .blank line cursor.rest)
    have hrest : start.scan.2.rest = (Cursor.next ⟨cursor.rest, line⟩).2.rest := hstep.2
    rw [@tokens_of_skip_ne_nil ⟨cursor.rest, line⟩ hunread, map_cons, map_cons, ih (Cursor.next ⟨cursor.rest, line⟩).2.line,
      hrest]
    exact congrArg (· :: _) hstep.1

end Cursor

namespace Lexer

def spellings (text : List Char) : List (TokenKind × String) := (Cursor.mk text 1).tokens.map Token.spelling

theorem spellings_nil : spellings [] = [(.eof, "")] := by
  unfold spellings Cursor.tokens
  rfl

theorem spellings_blank (text : List Char) : spellings (' ' :: text) = spellings text := by
  have htokens : (Cursor.mk (' ' :: text) 1).tokens = (Cursor.mk text 1).tokens := by
    rw [Cursor.tokens, Cursor.tokens.eq_def (Cursor.mk text 1)]
    rfl
  rw [spellings, htokens, spellings]

variable {rest : List Char}

theorem scan_of_cut {first : Char} {more : List Char} {kind : TokenKind}
    (hcut : cut first (more ++ rest) = (more.length + 1, .ok kind)) (line : Nat) :
    ∃ line', (Cursor.mk (first :: (more ++ rest)) line).scan = (⟨kind, String.ofList (first :: more), line'⟩, ⟨rest, line'⟩) := by
  refine ⟨line + (first :: more).count '\n', ?_⟩
  unfold Cursor.scan
  simp [hcut, Verdict.token]

theorem Cuts.spellings {text : List Char} {kind : TokenKind} (hcuts : Cuts text kind rest) :
    spellings (text ++ rest) = (kind, String.ofList text) :: Lexer.spellings rest := by
  obtain ⟨first, more, rfl, hskip, hcut⟩ := hcuts.cut
  have hstart : (Cursor.mk (first :: more ++ rest) 1).skipTrivia.rest = first :: (more ++ rest) := hskip
  obtain ⟨line, hscan⟩ := scan_of_cut hcut (Cursor.mk (first :: more ++ rest) 1).skipTrivia.line
  have hnext : (Cursor.mk (first :: more ++ rest) 1).next = (⟨kind, String.ofList (first :: more), line⟩, ⟨rest, line⟩) := by
    rw [Cursor.next, ← hscan, ← hstart]
  rw [Lexer.spellings, Cursor.tokens_of_skip_ne_nil (by rw [hstart]; exact cons_ne_nil _ _), hnext, map_cons,
    Cursor.spelling_tokens_line _ 1]
  rfl

/-- A token that is read, and is no error, is a lexeme in front of what is left. -/
theorem cuts_next (hunread : cursor.skipTrivia.rest ≠ []) (hfine : cursor.next.1.kind ≠ .error) :
    Cuts cursor.next.1.lexeme.toList cursor.next.1.kind cursor.next.2.rest := by
  have hskip : skip .blank cursor.skipTrivia.rest = cursor.skipTrivia.rest := skip_skip .blank cursor.rest
  unfold Cursor.next at hfine ⊢
  generalize cursor.skipTrivia = start at hunread hfine hskip ⊢
  obtain ⟨rest, line⟩ := start
  obtain ⟨first, more, rfl⟩ := exists_cons_of_ne_nil hunread
  rcases hcut : cut first more with ⟨count, problem | kind⟩
  · simp [Cursor.scan, hcut, Verdict.token] at hfine
  · obtain ⟨text, behind, rfl, rfl, hcuts⟩ := cuts_of_cut hskip hcut
    obtain ⟨line', hscan⟩ := scan_of_cut hcut line
    rw [hscan]
    simpa using hcuts

theorem cuts_of_mem_tokens {token : Token} (htoken : token ∈ cursor.tokens) (hfine : token.kind ≠ .error)
    (hunread : token.kind ≠ .eof) : ∃ rest, Cuts token.lexeme.toList token.kind rest := by
  fun_induction Cursor.tokens cursor with
  | case1 cursor start hread =>
    obtain rfl := mem_singleton.1 htoken
    exact absurd (Cursor.scan_kind_eof hread) hunread
  | case2 cursor start hleft ih =>
    rcases mem_cons.1 htoken with rfl | hlater
    · exact ⟨_, @cuts_next cursor hleft hfine⟩
    · exact ih hlater

theorem Cuts.string_body {text : List Char} (hcuts : Cuts text .string rest) :
    ∃ body, text = '"' :: (body ++ ['"']) ∧ StringBody body := by
  generalize hkind : TokenKind.string = kind at hcuts
  cases hcuts with
  | string hbody => exact ⟨_, rfl, hbody⟩
  | name _ _ => exact absurd (hkind ▸ TokenKind.mem_of_ofKeyword? _) (by decide)
  | sign hsign _ =>
    subst hkind
    exact absurd hsign (by decide)
  | _ => contradiction

end Lexer

end NanScript

import CircuitPartition.Yaml.Lexer
import Mathlib.Data.List.Basic

/-!
What the lexer does with the texts that are written: words without any meaning of their own, keys
and items that begin a line, and brackets with nothing between them.
-/

namespace CircuitPartition.Yaml

/-! ### Words -/

def isInert (c : Char) : Bool :=
  -- Only a dash has a meaning among these, where it stands alone.
  isWordChar c || c == '+' || c == '.'

structure Word (text : List Char) : Prop where
  ne_nil : text ≠ []
  ne_dash : text ≠ ['-']
  inert : ∀ c ∈ text, isInert c = true

theorem word_of_all {text : List Char} (hne : text ≠ []) (hdash : text ≠ ['-'])
    (hinert : text.all isInert = true) : Word text :=
  ⟨hne, hdash, List.all_eq_true.mp hinert⟩

structure KeyWord (text : List Char) : Prop extends Word text where
  short : text.length ≤ 1024
  unmarked : ∀ rest, isDocumentMark (text ++ rest) = false

section Inert

variable {c : Char}

theorem ne_of_isInert {d : Char} (h : isInert c = true) (hd : isInert d = false) : c ≠ d := by
  rintro rfl
  rw [h] at hd
  simp at hd

theorem toNat_of_isInert (h : isInert c = true) : 0x20 ≤ c.toNat ∧ c.toNat ≤ 0x7e := by
  simp only [isInert, isWordChar, Bool.or_eq_true, beq_iff_eq, or_assoc] at h
  obtain hletter | rfl | rfl | rfl | rfl := h
  . rw [Char.isAlphanum, Bool.or_eq_true] at hletter
    have hranges : (65 ≤ c.toNat ∧ c.toNat ≤ 90) ∨ (97 ≤ c.toNat ∧ c.toNat ≤ 122)
        ∨ (48 ≤ c.toNat ∧ c.toNat ≤ 57) := by
      obtain halpha | hdigit := hletter
      . obtain hupper | hlower := (Bool.or_eq_true _ _).mp halpha
        . exact .inl (of_decide_eq_true hupper)
        . obtain ⟨hlow, hhigh⟩ := (Bool.and_eq_true _ _).mp hlower
          exact .inr (.inl ⟨of_decide_eq_true hlow, of_decide_eq_true hhigh⟩)
      . obtain ⟨hlow, hhigh⟩ := (Bool.and_eq_true _ _).mp hdigit
        exact .inr (.inr ⟨of_decide_eq_true hlow, of_decide_eq_true hhigh⟩)
    omega
  all_goals decide

theorem isPrintable_of_isInert (h : isInert c = true) : isPrintable c = true := by
  obtain ⟨hlow, hhigh⟩ := toNat_of_isInert h
  simp [isPrintable, hlow, hhigh]

theorem utf8Size_of_isInert (h : isInert c = true) : c.utf8Size = 1 := by
  obtain ⟨_, hhigh⟩ := toNat_of_isInert h
  rw [Char.utf8Size_eq_one_iff, UInt32.le_iff_toNat_le]
  exact Nat.le_trans hhigh (by decide)

theorem isBlank_of_isInert (h : isInert c = true) : isBlank c = false := by
  simp [isBlank, ne_of_isInert h (d := ' ') rfl, ne_of_isInert h (d := '\t') rfl]

theorem isBreak_of_isInert (h : isInert c = true) : isBreak c = false := by
  simp [isBreak, ne_of_isInert h (d := '\n') rfl, ne_of_isInert h (d := '\u2028') rfl,
    ne_of_isInert h (d := '\u2029') rfl]

end Inert

/-! ### Positions -/

namespace Position

def past (p : Position) (text : List Char) : Position :=
  text.foldl next p

theorem line_past (p : Position) (text : List Char) : (p.past text).line = p.line := by
  induction text generalizing p with
  | nil => rfl
  | cons c text ih => exact ih (p.next c)

theorem column_past (p : Position) (text : List Char) :
    (p.past text).column = p.column + text.length := by
  induction text generalizing p with
  | nil => rfl
  | cons c text ih =>
    rw [past, List.foldl_cons, ← past, ih, List.length_cons]
    dsimp only [next]
    omega

theorem offset_past (p : Position) {text : List Char} (h : ∀ c ∈ text, isInert c = true) :
    (p.past text).offset = p.offset + text.length := by
  induction text generalizing p with
  | nil => rfl
  | cons c text ih =>
    rw [List.forall_mem_cons] at h
    rw [past, List.foldl_cons, ← past, ih _ h.right, List.length_cons]
    dsimp only [next]
    rw [utf8Size_of_isInert h.left]
    omega

def indented (p : Position) (column : Nat) : Position :=
  ⟨p.line + 1, column, column⟩

theorem next_indented (p : Position) (column : Nat) :
    (p.indented column).next ' ' = p.indented (column + 1) := rfl

end Position

/-! ### Blanks and plain scalars -/

def Solid (text : List Char) : Prop :=
  ∀ c ∈ text.head?, isBlank c = false ∧ isBreak c = false ∧ c ≠ '#' ∧ c ≠ '\ufeff'

def newLine (column : Nat) (text : List Char) : List Char :=
  '\n' :: (List.replicate column ' ' ++ text)

section Scanning

variable {indent column : Nat} {text : List Char}

theorem Word.solid (h : Word text) (rest : List Char) : Solid (text ++ rest) := by
  obtain ⟨c, chars, rfl⟩ := List.exists_cons_of_ne_nil h.ne_nil
  intro d hd
  have hc := h.inert c List.mem_cons_self
  cases hd
  exact ⟨isBlank_of_isInert hc, isBreak_of_isInert hc, ne_of_isInert hc rfl, ne_of_isInert hc rfl⟩

theorem scanPlain_word (hinert : ∀ c ∈ text, isInert c = true) (read : List Char) (p : Position)
    (rest : List Char) :
    scanPlain false indent read .none p (text ++ rest)
      = scanPlain false indent (text.reverse ++ read) .none (p.past text) rest := by
  induction text generalizing read p with
  | nil => rfl
  | cons c text ih =>
    rw [List.forall_mem_cons] at hinert
    have hcolon : c ≠ ':' := ne_of_isInert hinert.left rfl
    have hnext := ih hinert.right (c :: read) (p.next c)
    rw [List.cons_append, scanPlain, isBlank_of_isInert hinert.left,
      isBreak_of_isInert hinert.left]
    simp only [Gap.none, Gap.isNone, isStrayColon, endsPlain, hcolon, Gap.text, List.isEmpty_nil,
      Bool.not_false, Bool.and_true, Bool.not_true, Bool.false_and, Bool.false_eq_true, if_false,
      beq_iff_eq, Bool.or_false, List.reverse_nil, List.nil_append, Bool.and_eq_true, false_and]
    rw [← Gap.none, hnext]
    simp [Position.past]

theorem scanPlain_colon {rest : List Char} (hrest : startsBlank rest = true) (read : List Char)
    (p : Position) :
    scanPlain false indent read .none p (':' :: rest)
      = some ⟨read.reverse, false, ⟨p, ':' :: rest⟩⟩ := by
  simp [scanPlain, isBlank, isBreak, Gap.none, Gap.isNone, Gap.breaksLine, isStrayColon, endsPlain,
    hrest]

theorem scanPlain_newLine (hcolumn : column < indent) (hsolid : Solid text) (read : List Char)
    (p : Position) :
    scanPlain false indent read .none p (newLine column text)
      = some ⟨read.reverse, true, ⟨p.indented column, text⟩⟩ := by
  have hblanks (before after : Nat) (hle : before + after = column) :
      scanPlain false indent read ⟨[], ['\n'], false⟩ (p.indented before)
          (List.replicate after ' ' ++ text)
        = some ⟨read.reverse, true, ⟨p.indented column, text⟩⟩ := by
    induction after generalizing before with
    | zero =>
      have hbefore : before = column := hle
      subst hbefore
      cases text with
      | nil => rfl
      | cons c text =>
        obtain ⟨hblank, hbreak, _⟩ := hsolid c rfl
        simp [scanPlain, hblank, hbreak, Gap.isNone, Gap.breaksLine, endsAfterGap,
          Position.indented, hcolumn]
    | succ after ih =>
      rw [List.replicate_succ, List.cons_append, scanPlain, ← ih (before + 1) (by omega)]
      simp [isBlank, Gap.addBlank, Gap.breaksLine, Position.next_indented]
  exact hblanks 0 column (Nat.zero_add column)

end Scanning

namespace Lexer

/-! ### Getting from token to token -/

theorem go_of_solid (l : Lexer) (keyAllowed : Bool) (p : Position) {text : List Char}
    (h : Solid text) :
    skipBlanks.go l keyAllowed false p text = { l with keyAllowed, cursor := ⟨p, text⟩ } := by
  cases text with
  | nil => rfl
  | cons c text =>
    obtain ⟨hblank, hbreak, hcomment, hmark⟩ := h c rfl
    rw [isBlank, Bool.or_eq_false_iff] at hblank
    simp [skipBlanks.go, hbreak, hblank, hcomment, hmark]

theorem skipBlanks_of_solid {l : Lexer} (h : Solid l.cursor.rest) : l.skipBlanks = l :=
  go_of_solid l l.keyAllowed l.cursor.position h

theorem skipBlanks_blank {l : Lexer} {p : Position} {text : List Char}
    (hcursor : l.cursor = ⟨p, ' ' :: text⟩) (hsolid : Solid text) :
    l.skipBlanks = { l with cursor := ⟨p.next ' ', text⟩ } := by
  unfold skipBlanks
  rw [hcursor]
  exact go_of_solid l l.keyAllowed (p.next ' ') hsolid

theorem skipBlanks_newLine {l : Lexer} {p : Position} {column : Nat} {text : List Char}
    (hcursor : l.cursor = ⟨p, newLine column text⟩) (houtside : l.outside = [])
    (hsolid : Solid text) :
    l.skipBlanks = { l with keyAllowed := true, cursor := ⟨p.indented column, text⟩ } := by
  have hblanks (before after : Nat) (hle : before + after = column) :
      skipBlanks.go l true false (p.indented before) (List.replicate after ' ' ++ text)
        = { l with keyAllowed := true, cursor := ⟨p.indented column, text⟩ } := by
    induction after generalizing before with
    | zero =>
      have hbefore : before = column := hle
      subst hbefore
      exact go_of_solid l true (p.indented before) hsolid
    | succ after ih => exact ih (before + 1) (by omega)
  have hflow : (l.keyAllowed || !l.inFlow) = true := by
    simp [inFlow, houtside]
  unfold skipBlanks
  rw [hcursor, newLine, skipBlanks.go, if_pos (by decide), hflow]
  exact hblanks 0 column (Nat.zero_add column)

def closing (indents : List Nat) (column : Nat) : List Token :=
  List.replicate (indents.takeWhile (column < ·)).length .blockEnd

def enclosing (indents : List Nat) (column : Nat) : List Nat :=
  indents.dropWhile (column < ·)

theorem nothing_closed {indents : List Nat} {column : Nat}
    (h : ∀ level ∈ indents.head?, level ≤ column) :
    closing indents column = [] ∧ enclosing indents column = indents := by
  unfold closing enclosing
  cases indents with
  | nil => exact ⟨rfl, rfl⟩
  | cons level indents =>
    have hinside : ¬column < level := Nat.not_lt.mpr (h level rfl)
    simp [hinside]

theorem unroll_eq {l : Lexer} (houtside : l.outside = []) (column : Nat) :
    l.unroll column = { l with
      indents := enclosing l.indents column
      tokens := l.tokens ++ (closing l.indents column).toArray } := by
  have hdrop : (l.indents.takeWhile (column < ·) ++ l.indents.dropWhile (column < ·)).drop
      (l.indents.takeWhile (column < ·)).length = l.indents.dropWhile (column < ·) :=
    List.drop_left
  rw [List.takeWhile_append_dropWhile] at hdrop
  rw [unroll, inFlow, houtside, closing, List.toArray_replicate]
  simp only [hdrop, List.isEmpty_nil, Bool.not_true, Bool.false_eq_true, if_false, enclosing]

def placed (keyAllowed : Bool) (tokens : List Token) (indents : List Nat) (p : Position)
    (text : List Char) : Lexer :=
  ⟨⟨p, text⟩, tokens.toArray, indents, keyAllowed, none, []⟩

def Arrives (l here : Lexer) : Prop :=
  ∃ passed, l.skipBlanks.expireCandidates? = some passed ∧ passed.unroll passed.column = here

def Reaches (count : Nat) (l next : Lexer) : Prop :=
  ∀ fuel, run? (fuel + count) l = run? fuel next

theorem Reaches.trans {m n : Nat} {l mid next : Lexer} (hleft : Reaches m l mid)
    (hright : Reaches n mid next) : Reaches (m + n) l next := by
  intro fuel
  rw [← hright fuel, ← hleft (fuel + n), Nat.add_assoc, Nat.add_comm n m]

theorem rest_unroll (l : Lexer) (column : Nat) : (l.unroll column).cursor = l.cursor := by
  unfold unroll
  split <;> rfl

theorem Arrives.reaches {l here next : Lexer} (h : Arrives l here) {c : Char} {rest : List Char}
    (hrest : here.cursor.rest = c :: rest) (htoken : here.token? c rest = some next) :
    Reaches 1 l next := by
  obtain ⟨passed, hpassed, rfl⟩ := h
  rw [rest_unroll] at hrest
  intro fuel
  rw [run?, hpassed]
  simp only [Option.bind_eq_bind, Option.bind_some, hrest, htoken]

section

variable {keyAllowed : Bool} {tokens : List Token} {indents : List Nat} {p : Position}
  {text : List Char} {column : Nat} {l : Lexer}

theorem arrives_of_skipBlanks {candidate left : Option Candidate}
    (hskip : l.skipBlanks = ⟨⟨p, text⟩, tokens.toArray, indents, keyAllowed, candidate, []⟩)
    (hexpire : expire? p candidate = some left) :
    Arrives l {
      cursor := ⟨p, text⟩
      tokens := (tokens ++ closing indents p.column).toArray
      indents := enclosing indents p.column
      keyAllowed
      candidate := left
      outside := [] } := by
  refine ⟨⟨⟨p, text⟩, tokens.toArray, indents, keyAllowed, left, []⟩, ?_, ?_⟩
  . rw [hskip, expireCandidates?]
    dsimp only
    rw [hexpire]
    rfl
  . rw [unroll_eq rfl, ← List.append_toArray]
    rfl

theorem arrives_within (hskip : l.skipBlanks = placed keyAllowed tokens indents p text)
    (hlevel : ∀ level ∈ indents.head?, level ≤ p.column) :
    Arrives l (placed keyAllowed tokens indents p text) := by
  have harrives := arrives_of_skipBlanks hskip rfl
  rw [(nothing_closed hlevel).left, (nothing_closed hlevel).right, List.append_nil] at harrives
  exact harrives

theorem arrives_blank {level : Nat} (hsolid : Solid text) (hlevel : level ≤ p.column + 1) :
    Arrives (placed keyAllowed tokens (level :: indents) p (' ' :: text))
      (placed keyAllowed tokens (level :: indents) (p.next ' ') text) := by
  apply arrives_within
  . exact skipBlanks_blank rfl hsolid
  . rintro _ ⟨⟩
    exact hlevel

def BeginsLine (l : Lexer) (tokens : List Token) (indents : List Nat) (column : Nat)
    (text : List Char) : Prop :=
  ∃ p : Position, p.column = column ∧
    Arrives l (placed true (tokens ++ closing indents column) (enclosing indents column) p text)

theorem beginsLine_newLine (hsolid : Solid text) :
    (placed keyAllowed tokens indents p (newLine column text)).BeginsLine tokens indents column
      text :=
  ⟨p.indented column, rfl, arrives_of_skipBlanks (skipBlanks_newLine rfl rfl hsolid) rfl⟩

theorem unrollAll_unroll (l : Lexer) (column : Nat) :
    (l.unroll column).unrollAll = l.unrollAll := by
  unfold unroll unrollAll
  by_cases hflow : l.inFlow = true
  . simp [hflow]
  . have hclosed : (l.indents.takeWhile (column < ·)).length ≤ l.indents.length :=
      (List.takeWhile_prefix _).length_le
    rw [inFlow] at hflow
    simp [hflow, inFlow, Array.append_assoc, hclosed]

theorem BeginsLine.run? (h : l.BeginsLine tokens indents 0 []) (fuel : Nat) :
    ∃ final, run? (fuel + 1) l = some final ∧ final.tokens =
      (tokens ++ closing indents 0
        ++ List.replicate (enclosing indents 0).length Token.blockEnd).toArray := by
  obtain ⟨p, _, passed, hpassed, hunroll⟩ := h
  have hrest : passed.cursor.rest = [] := by
    rw [← rest_unroll passed passed.column, hunroll]
    rfl
  rw [Lexer.run?, hpassed]
  simp only [Option.bind_eq_bind, Option.bind_some, hrest]
  rw [← unrollAll_unroll passed passed.column, hunroll]
  refine ⟨_, rfl, ?_⟩
  rw [← List.append_toArray, List.toArray_replicate]
  rfl

end

/-! ### Words -/

section

variable {keyAllowed : Bool} {tokens : List Token} {indents : List Nat} {p : Position}
  {word text : List Char} {column : Nat} {l : Lexer}

theorem isIndicator_of_isInert {c : Char} (h : isInert c = true) (hdash : c ≠ '-') :
    isIndicator c = false := by
  have hall : ∀ n < 0x7f, isInert (.ofNat n) = true → Char.ofNat n ≠ '-' →
      isIndicator (.ofNat n) = false := by
    decide
  have hc := hall c.toNat (Nat.lt_succ_of_le (toNat_of_isInert h).right)
  rw [Char.ofNat_toNat] at hc
  exact hc h hdash

theorem token?_word {c : Char} (h : Word (c :: word))
    (hmark : l.column = 0 → isDocumentMark (c :: (word ++ text)) = false) :
    l.token? c (word ++ text) = l.plain? := by
  have hc := h.inert c List.mem_cons_self
  -- A dash is followed by the rest of the word.
  have hdash : c = '-' →
      startsBlank (word ++ text) = false ∧ (word ++ text).head?.any isBlank = false := by
    rintro rfl
    cases word with
    | nil => exact absurd rfl h.ne_dash
    | cons d word =>
      have hd := h.inert d (List.mem_cons_of_mem _ List.mem_cons_self)
      simp [startsBlank, isBlank_of_isInert hd, isBreak_of_isInert hd]
  have hbegins : l.beginsPlain c (word ++ text) = true := by
    by_cases hcdash : c = '-'
    . rw [beginsPlain, (hdash hcdash).right, hcdash]
      simp
    . simp [beginsPlain, startsBlank, isBlank_of_isInert hc, isBreak_of_isInert hc,
        isIndicator_of_isInert hc hcdash]
  have hentry : (c == '-' && startsBlank (word ++ text)) = false := by
    by_cases hcdash : c = '-'
    . simp [(hdash hcdash).left]
    . simp [hcdash]
  have hdirective : (l.column == 0 && c == '%') = false := by
    simp [ne_of_isInert hc (d := '%') rfl]
  have hdocument : (l.column == 0 && isDocumentMark (c :: (word ++ text))) = false := by
    simpa using hmark
  unfold token?
  rw [hdirective, hdocument]
  simp only [Bool.false_eq_true, if_false]
  split
  case h_11 =>
    simp [hentry, hbegins, ne_of_isInert hc (d := '?') rfl, ne_of_isInert hc (d := ':') rfl,
      ne_of_isInert hc (d := '|') rfl, ne_of_isInert hc (d := '>') rfl]
  all_goals exact absurd hc (by decide)

theorem plain?_placed {brokeLine : Bool} {cursor : Cursor}
    (h : scanPlain false (placed keyAllowed tokens indents p text).innerColumn [] .none p text
      = some ⟨word, brokeLine, cursor⟩) :
    (placed keyAllowed tokens indents p text).plain? = some {
      cursor
      tokens := (tokens ++ [Token.scalar (String.ofList word) .plain]).toArray
      indents
      keyAllowed := brokeLine
      candidate :=
        if keyAllowed then some ⟨tokens.length, indents.head? == some p.column, p⟩ else none
      outside := [] } := by
  -- Remembering a candidate changes nothing that the scan depends on.
  have hscan (candidate : Option Candidate) : scanPlain false
      (innerColumn ⟨⟨p, text⟩, tokens.toArray, indents, keyAllowed, candidate, []⟩)
      [] .none p text = some ⟨word, brokeLine, cursor⟩ := h
  unfold plain? scalar? saveCandidate? placed
  cases keyAllowed with
  | false => simp [hscan, emit, inFlow]
  | true => simp [giveUpCandidate?, giveUp?, hscan, emit, inFlow, Lexer.column]

theorem reaches_plain {scanned : List Char} {brokeLine : Bool} {cursor : Cursor}
    (hword : Word word) (hmark : p.column = 0 → isDocumentMark (word ++ text) = false)
    (harrive : Arrives l (placed keyAllowed tokens indents p (word ++ text)))
    (hscan : scanPlain false (placed keyAllowed tokens indents p (word ++ text)).innerColumn []
      .none p (word ++ text) = some ⟨scanned, brokeLine, cursor⟩) :
    Reaches 1 l {
      cursor
      tokens := (tokens ++ [Token.scalar (String.ofList scanned) .plain]).toArray
      indents
      keyAllowed := brokeLine
      candidate :=
        if keyAllowed then some ⟨tokens.length, indents.head? == some p.column, p⟩ else none
      outside := [] } := by
  obtain ⟨c, chars, rfl⟩ := List.exists_cons_of_ne_nil hword.ne_nil
  have htoken := token?_word (l := placed keyAllowed tokens indents p (c :: chars ++ text)) hword
    hmark
  exact harrive.reaches rfl (htoken.trans (plain?_placed hscan))

theorem reaches_word {level : Nat} (hword : Word word) (hlevel : level < p.column)
    (hcolumn : column ≤ level) (hsolid : Solid text) (harrive : Arrives l
      (placed keyAllowed tokens (level :: indents) p (word ++ newLine column text))) :
    ∃ next, Reaches 1 l next ∧ next.BeginsLine
      (tokens ++ [.scalar (String.ofList word) .plain]) (level :: indents) column text := by
  have hscan := (scanPlain_word hword.inert [] p (newLine column text)).trans
    (scanPlain_newLine (Nat.lt_succ_of_le hcolumn) hsolid _ _)
  rw [List.append_nil, List.reverse_reverse] at hscan
  refine ⟨_, reaches_plain hword ?_ harrive hscan, (p.past word).indented column, rfl,
    arrives_of_skipBlanks (skipBlanks_of_solid hsolid) ?_⟩
  . intro hzero
    omega
  . cases keyAllowed with
    | false => rfl
    | true =>
      have hline : p.line < (p.past word).line + 1 := by
        rw [Position.line_past]
        exact Nat.lt_succ_self p.line
      have hfree : ¬level = p.column := Nat.ne_of_lt hlevel
      simp [expire?, giveUp?, Position.indented, hline, hfree]

theorem insertIdx_length {β : Type} (before after : List β) (x : β) :
    (before ++ after).insertIdx before.length x = before ++ x :: after := by
  induction before with
  | nil => rfl
  | cons y before ih => simp [ih]

theorem value?_candidate {required : Bool} {q : Position} {c : Char} {outer : List Nat}
    (houter : ∀ level ∈ outer.head?, level < p.column) (opens : Bool) :
    value? ⟨⟨q, c :: text⟩, (tokens ++ [Token.scalar (String.ofList word) .plain]).toArray,
        if opens then outer else p.column :: outer, keyAllowed,
        some ⟨tokens.length, required, p⟩, []⟩
      = some (placed false
          (tokens ++ (if opens then [.blockMappingStart] else [])
            ++ [.key, .scalar (String.ofList word) .plain, .value])
          (p.column :: outer) (q.next c) text) := by
  unfold value?
  dsimp only
  rw [List.insertIdxIfInBounds_toArray, insertIdx_length]
  cases opens with
  | true =>
    have hopens : outer.head?.all (· < p.column) = true := by
      cases outer with
      | nil => rfl
      | cons level outer => simpa using houter level rfl
    simp [roll, inFlow, hopens, insertIdx_length, emit, skip, Cursor.skip, placed]
  | false => simp [roll, inFlow, emit, skip, Cursor.skip, placed]

theorem reaches_key {outer : List Nat} (hkey : KeyWord word) (htext : startsBlank text = true)
    (houter : ∀ level ∈ outer.head?, level < p.column) (opens : Bool)
    (harrive : Arrives l (placed true tokens (if opens then outer else p.column :: outer) p
      (word ++ ':' :: text))) :
    Reaches 2 l (placed false
      (tokens ++ (if opens then [.blockMappingStart] else [])
        ++ [.key, .scalar (String.ofList word) .plain, .value])
      (p.column :: outer) ((p.past word).next ':') text) := by
  generalize hindents : (if opens then outer else p.column :: outer) = indents at harrive
  have hinside : ∀ level ∈ indents.head?, level ≤ (p.past word).column := by
    rw [Position.column_past, ← hindents]
    intro level hhead
    cases opens with
    | true => exact Nat.le_add_right_of_le (Nat.le_of_lt (houter level hhead))
    | false =>
      cases hhead
      exact Nat.le_add_right _ _
  have hscan : scanPlain false (placed true tokens indents p (word ++ ':' :: text)).innerColumn []
      .none p (word ++ ':' :: text) = some ⟨word, false, ⟨p.past word, ':' :: text⟩⟩ := by
    rw [scanPlain_word hkey.inert, scanPlain_colon htext, List.append_nil, List.reverse_reverse]
  have hword := reaches_plain hkey.toWord (fun _ => hkey.unmarked _) harrive hscan
  have hreach : ¬p.offset + 1024 < (p.past word).offset := by
    have hshort := hkey.short
    rw [Position.offset_past p hkey.inert]
    omega
  have htoken (l : Lexer) : l.token? ':' text = l.value? := by
    simp [token?, isDocumentMark, htext]
  let candidate : Candidate := ⟨tokens.length, indents.head? == some p.column, p⟩
  have hexpire : expire? (p.past word) (some candidate) = some (some candidate) := by
    simp [expire?, Position.line_past, hreach, candidate]
  have hsolid : Solid (':' :: text) := by
    rintro _ ⟨⟩
    decide
  have hcolon := arrives_of_skipBlanks (skipBlanks_of_solid (l := ⟨⟨p.past word, ':' :: text⟩,
    (tokens ++ [Token.scalar (String.ofList word) .plain]).toArray, indents, false, some candidate,
    []⟩) hsolid) hexpire
  rw [(nothing_closed hinside).left, (nothing_closed hinside).right, List.append_nil] at hcolon
  subst hindents
  exact hword.trans (hcolon.reaches rfl ((htoken _).trans (value?_candidate houter opens)))

theorem reaches_item {level : Nat} (hword : Word word) (hlevel : level = p.column)
    (hcolumn : column ≤ level) (hsolid : Solid text) (harrive : Arrives l
      (placed true tokens (level :: indents) p ('-' :: ' ' :: (word ++ newLine column text)))) :
    ∃ next, Reaches 2 l next ∧ next.BeginsLine
      (tokens ++ [.blockEntry, .scalar (String.ofList word) .plain]) (level :: indents) column
      text := by
  have hentry (rest : List Char) :
      (placed true tokens (level :: indents) p ('-' :: ' ' :: rest)).token? '-' (' ' :: rest)
        = some (placed true (tokens ++ [.blockEntry]) (level :: indents) (p.next '-')
          (' ' :: rest)) := by
    simp [token?, isDocumentMark, startsBlank, isBlank, blockEntry?, roll, inFlow, hlevel,
      giveUpCandidate?, giveUp?, emit, skip, Cursor.skip, placed, Lexer.column]
  have hinside : level < ((p.next '-').next ' ').column := by
    subst hlevel
    exact Nat.lt_add_of_pos_right Nat.two_pos
  obtain ⟨next, hreaches, hnext⟩ := reaches_word hword hinside hcolumn hsolid
    (arrives_blank (hword.solid (newLine column text)) (Nat.le_of_lt hinside))
  refine ⟨next, (harrive.reaches rfl (hentry _)).trans hreaches, ?_⟩
  rwa [List.append_assoc] at hnext

theorem reaches_brackets {level : Nat} (hlevel : level ≤ p.column) :
    Reaches 2 (placed false tokens (level :: indents) p (' ' :: '[' :: ']' :: text))
      (placed false (tokens ++ [.flowSequenceStart, .flowSequenceEnd]) (level :: indents)
        (((p.next ' ').next '[').next ']') text) := by
  have hopen : Arrives (placed false tokens (level :: indents) p (' ' :: '[' :: ']' :: text))
      (placed false tokens (level :: indents) (p.next ' ') ('[' :: ']' :: text)) := by
    refine arrives_blank ?_ (Nat.le_succ_of_le hlevel)
    rintro _ ⟨⟩
    decide
  let inside : Lexer := ⟨⟨(p.next ' ').next '[', ']' :: text⟩,
    (tokens ++ [Token.flowSequenceStart]).toArray, level :: indents, true, none, [none]⟩
  have hclose : Arrives inside inside := by
    refine ⟨inside, ?_, rfl⟩
    rw [skipBlanks_of_solid]
    . rfl
    . rintro _ ⟨⟩
      decide
  refine (hopen.reaches rfl ?_).trans (hclose.reaches rfl ?_)
  . simp [token?, openFlow?, saveCandidate?, emit, skip, Cursor.skip, placed, isDocumentMark,
      inside]
  . simp [token?, closeFlow?, giveUpCandidate?, giveUp?, emit, skip, Cursor.skip, placed,
      isDocumentMark, inside]

end

end Lexer

end CircuitPartition.Yaml

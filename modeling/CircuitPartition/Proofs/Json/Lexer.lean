import CircuitPartition.Json.Printer
import CircuitPartition.Proofs.Json.Number

/-!
The lexer on texts that have been printed: the characters of a word, of a string and of blanks, each
in front of whatever else follows.
-/

namespace CircuitPartition.Json

namespace Lexer

def run (lexer : Lexer) (text : List Char) : Option Lexer :=
  (text.foldlM step lexer).bind endWord

theorem run_cons (lexer : Lexer) (c : Char) (text : List Char) :
    lexer.run (c :: text) = (lexer.step c).bind (run · text) := by
  unfold run
  rw [List.foldlM_cons, Option.bind_eq_bind, Option.bind_assoc]

variable {before : List Token}

def Stops (rest : List Char) : Prop :=
  ∀ c ∈ rest.head?, isWordChar c = false

theorem stops_nil : Stops [] := by
  simp [Stops]

theorem stops_cons {c : Char} (rest : List Char) (h : isWordChar c = false) :
    Stops (c :: rest) := by
  simpa [Stops] using h

theorem start_of_isWordChar {c : Char} (h : isWordChar c = true) (lexer : Lexer) :
    lexer.start c = some { lexer with mode := .word [c] } := by
  unfold start
  split <;> first | exact absurd h (by decide) | exact if_pos h

theorem run_word_chars {word : List Char} (h : ∀ c ∈ word, isWordChar c = true)
    (chars : List Char) (rest : List Char) :
    run ⟨.word chars, before⟩ (word ++ rest)
      = run ⟨.word (word.reverse ++ chars), before⟩ rest := by
  induction word generalizing chars with
  | nil => rfl
  | cons c word ih =>
    rw [List.forall_mem_cons] at h
    have hstep : step ⟨.word chars, before⟩ c = some ⟨.word (c :: chars), before⟩ := by
      unfold step
      exact if_pos h.left
    rw [List.cons_append, run_cons, hstep, Option.bind_some, ih h.right]
    simp

theorem run_endWord {chars : List Char} {token : Token} (h : ofWord? chars.reverse = some token)
    {rest : List Char} (hrest : Stops rest) :
    run ⟨.word chars, before⟩ rest = run ⟨.between, token :: before⟩ rest := by
  have hend : endWord ⟨.word chars, before⟩ = some ⟨.between, token :: before⟩ := by
    unfold endWord
    simp [h, emit]
  cases rest with
  | nil => exact hend
  | cons c rest =>
    have hc : isWordChar c = false := hrest c rfl
    have hstep : step ⟨.word chars, before⟩ c = start ⟨.between, token :: before⟩ c := by
      unfold step
      dsimp only
      rw [if_neg (by simp [hc]), hend]
      rfl
    rw [run_cons, hstep]
    exact (run_cons ⟨.between, token :: before⟩ c rest).symm

theorem run_word {word : List Char} (hne : word ≠ []) (hword : word.all isWordChar = true)
    {token : Token} (h : ofWord? word = some token) {rest : List Char} (hrest : Stops rest) :
    run ⟨.between, before⟩ (word ++ rest) = run ⟨.between, token :: before⟩ rest := by
  obtain ⟨c, chars, rfl⟩ := List.exists_cons_of_ne_nil hne
  rw [List.all_eq_true, List.forall_mem_cons] at hword
  have hstep : step ⟨.between, before⟩ c = some ⟨.word [c], before⟩ :=
    start_of_isWordChar hword.left _
  rw [List.cons_append, run_cons, hstep, Option.bind_some, run_word_chars hword.right]
  apply run_endWord _ hrest
  simpa using h

theorem ofWord?_of_numeral? {word : List Char} {n : Decimal.Numeral} (h : numeral? word = some n) :
    ofWord? word = some (.number (String.ofList word)) := by
  have hne {text : String} (htext : numeral? text.toList = none) : String.ofList word ≠ text := by
    rintro rfl
    rw [String.toList_ofList] at htext
    rw [htext] at h
    simp at h
  unfold ofWord?
  split
  . next heq => exact absurd heq (hne (by decide))
  . next heq => exact absurd heq (hne (by decide))
  . next heq => exact absurd heq (hne (by decide))
  . rw [h]
    rfl

theorem run_numeral {lexeme : String} (h : (numeral? lexeme.toList).isSome = true)
    {rest : List Char} (hrest : Stops rest) :
    run ⟨.between, before⟩ (lexeme.toList ++ rest)
      = run ⟨.between, .number lexeme :: before⟩ rest := by
  obtain ⟨n, hn⟩ := Option.isSome_iff_exists.mp h
  obtain ⟨hne, hword⟩ := forall_isWordChar_of_numeral? hn
  apply run_word hne (List.all_eq_true.mpr hword) _ hrest
  rw [ofWord?_of_numeral? hn, String.ofList_toList]

theorem run_null {rest : List Char} (hrest : Stops rest) :
    run ⟨.between, before⟩ ("null".toList ++ rest) = run ⟨.between, .null :: before⟩ rest :=
  run_word (by decide) (by decide) (by decide) hrest

theorem run_bool (b : Bool) {rest : List Char} (hrest : Stops rest) :
    run ⟨.between, before⟩ ((if b then "true" else "false").toList ++ rest)
      = run ⟨.between, .bool b :: before⟩ rest := by
  cases b with
  | false => exact run_word (by decide) (by decide) (by decide) hrest
  | true => exact run_word (by decide) (by decide) (by decide) hrest

theorem run_blanks (n : Nat) (rest : List Char) :
    run ⟨.between, before⟩ (List.replicate n ' ' ++ rest) = run ⟨.between, before⟩ rest := by
  induction n with
  | zero => rfl
  | succ n ih =>
    rw [List.replicate_succ, List.cons_append, run_cons]
    exact ih

theorem run_newLine (level : Nat) (rest : List Char) :
    run ⟨.between, before⟩ (newLine level rest) = run ⟨.between, before⟩ rest := by
  unfold newLine
  rw [run_cons]
  exact run_blanks _ rest

def pieceOf (c : Char) : Piece :=
  if c < ' ' ∧ c ∉ ['\x08', '\x0c', '\n', '\r', '\t'] then .unit c.toNat else .char c

theorem hexValue?_control {n : Nat} (h : n < 32) :
    Bytes.hexValue? ['0', '0', Bytes.hexDigit (n / 16), Bytes.hexDigit (n % 16)] = some n := by
  revert n
  decide

theorem run_escape (c : Char) (pieces : List Piece) (rest : List Char) :
    run ⟨.text pieces, before⟩ (escape c ++ rest)
      = run ⟨.text (pieceOf c :: pieces), before⟩ rest := by
  unfold escape
  split
  iterate 7 rfl
  next hquote hbackslash hb hf hn hr ht =>
    split
    . next hcontrol =>
      have hpiece : pieceOf c = .unit c.toNat := by
        simp_all [pieceOf]
      have hvalue := hexValue?_control (n := c.toNat) hcontrol
      simp [run_cons, step, hpiece, hvalue]
    . next hcontrol =>
      have hpiece : pieceOf c = .char c := by
        simp_all [pieceOf]
      have hstep : step ⟨.text pieces, before⟩ c = some ⟨.text (.char c :: pieces), before⟩ := by
        unfold step
        dsimp only
        rw [if_neg hquote, if_neg hbackslash, if_neg hcontrol]
      rw [hpiece, List.singleton_append, run_cons, hstep, Option.bind_some]

theorem run_escapes (chars : List Char) (pieces : List Piece) (rest : List Char) :
    run ⟨.text pieces, before⟩ (chars.flatMap escape ++ rest)
      = run ⟨.text ((chars.map pieceOf).reverse ++ pieces), before⟩ rest := by
  induction chars generalizing pieces with
  | nil => rfl
  | cons c chars ih =>
    rw [List.flatMap_cons, List.append_assoc, run_escape, ih]
    simp

theorem text?_unit {n : Nat} (h : n < 0xD800) (pieces : List Piece) :
    Piece.text? (.unit n :: pieces) = (Piece.text? pieces).map (Char.ofNat n :: ·) := by
  have hhigh : Piece.isHighSurrogate n = false := by
    simp [Piece.isHighSurrogate]
    omega
  have hlow : Piece.isLowSurrogate n = false := by
    simp [Piece.isLowSurrogate]
    omega
  cases pieces with
  | nil => simp [Piece.text?, hhigh, hlow]
  | cons piece pieces =>
    cases piece with
    | char c => simp [Piece.text?, hhigh, hlow]
    | unit low =>
      rw [Piece.text?]
      simp [hhigh, hlow]

theorem text?_pieceOf (c : Char) (pieces : List Piece) :
    Piece.text? (pieceOf c :: pieces) = (Piece.text? pieces).map (c :: ·) := by
  unfold pieceOf
  split
  . next hcontrol =>
    have hlt : c.toNat < 32 := hcontrol.left
    rw [text?_unit (by omega), Char.ofNat_toNat]
  . rw [Piece.text?]

theorem text?_map_pieceOf (chars : List Char) : Piece.text? (chars.map pieceOf) = some chars := by
  induction chars with
  | nil => rfl
  | cons c chars ih =>
    rw [List.map_cons, text?_pieceOf, ih]
    rfl

theorem run_writeString (text : String) (rest : List Char) :
    run ⟨.between, before⟩ (writeString (some text) rest)
      = run ⟨.between, .string (some text) :: before⟩ rest := by
  have hstart : step ⟨.between, before⟩ '"' = some ⟨.text [], before⟩ := rfl
  have hend (pieces : List Piece) : step ⟨.text pieces, before⟩ '"'
      = some ⟨.between, .string ((Piece.text? pieces.reverse).map String.ofList) :: before⟩ := rfl
  unfold writeString
  rw [run_cons, hstart, Option.bind_some, Option.getD_some, run_escapes, run_cons, hend,
    Option.bind_some, List.append_nil, List.reverse_reverse, text?_map_pieceOf, Option.map_some,
    String.ofList_toList]

end Lexer

end CircuitPartition.Json

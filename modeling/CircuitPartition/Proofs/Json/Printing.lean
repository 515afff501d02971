import CircuitPartition.Json.Parser
import CircuitPartition.Proofs.Json.Lexer

/-!
What has been printed is read back: the lexer finds the tokens that a value is written with, and the
parser makes that value of them.
-/

namespace CircuitPartition.Json

mutual

def tokens : Json → List Token
  | .null => [.null]
  | .bool b => [.bool b]
  | .number lexeme => [.number lexeme]
  | .string text => [.string text]
  | .array [] => [.beginArray, .endArray]
  | .array (item :: items) => .beginArray :: (tokens item ++ (tokensOfItems items ++ [.endArray]))
  | .object [] => [.beginObject, .endObject]
  | .object ((key, value) :: entries) =>
    .beginObject :: .string key :: .colon
      :: (tokens value ++ (tokensOfEntries entries ++ [.endObject]))

def tokensOfItems : List Json → List Token
  | [] => []
  | item :: items => .comma :: (tokens item ++ tokensOfItems items)

def tokensOfEntries : List (Option String × Json) → List Token
  | [] => []
  | (key, value) :: entries =>
    .comma :: .string key :: .colon :: (tokens value ++ tokensOfEntries entries)

end

inductive Printable : Json → Prop where
  | null : Printable .null
  | bool (b : Bool) : Printable (.bool b)
  | number {lexeme : String} : (numeral? lexeme.toList).isSome = true → Printable (.number lexeme)
  | string (text : String) : Printable (.string (some text))
  | array {items : List Json} : (∀ item ∈ items, Printable item) → Printable (.array items)
  | object {entries : List (Option String × Json)} :
    (∀ entry ∈ entries, entry.1.isSome = true) → (∀ entry ∈ entries, Printable entry.2) →
    Printable (.object entries)

section Lexer

open Lexer

def Lexes (value : Json) : Prop :=
  ∀ level before rest, Stops rest →
    run ⟨.between, before⟩ (writeIndented level value rest)
      = run ⟨.between, (tokens value).reverse ++ before⟩ rest

theorem stops_newLine (level : Nat) (rest : List Char) : Stops (newLine level rest) :=
  stops_cons _ (by decide)

theorem stops_indentItems (level : Nat) (items : List Json) {rest : List Char}
    (h : Stops rest) : Stops (indentItems level items rest) := by
  cases items with
  | nil => exact h
  | cons item items => exact stops_cons _ (by decide)

theorem stops_indentEntries (level : Nat) (entries : List (Option String × Json))
    {rest : List Char} (h : Stops rest) : Stops (indentEntries level entries rest) := by
  cases entries with
  | nil => exact h
  | cons entry entries => exact stops_cons _ (by decide)

theorem run_comma (before : List Token) (rest : List Char) :
    run ⟨.between, before⟩ (',' :: rest) = run ⟨.between, .comma :: before⟩ rest := rfl

theorem run_colon (before : List Token) (rest : List Char) :
    run ⟨.between, before⟩ (':' :: ' ' :: rest) = run ⟨.between, .colon :: before⟩ rest := rfl

theorem run_beginArray (before : List Token) (rest : List Char) :
    run ⟨.between, before⟩ ('[' :: rest) = run ⟨.between, .beginArray :: before⟩ rest := rfl

theorem run_endArray (before : List Token) (rest : List Char) :
    run ⟨.between, before⟩ (']' :: rest) = run ⟨.between, .endArray :: before⟩ rest := rfl

theorem run_beginObject (before : List Token) (rest : List Char) :
    run ⟨.between, before⟩ ('\x7b' :: rest) = run ⟨.between, .beginObject :: before⟩ rest := rfl

theorem run_endObject (before : List Token) (rest : List Char) :
    run ⟨.between, before⟩ ('\x7d' :: rest) = run ⟨.between, .endObject :: before⟩ rest := rfl

theorem run_indentItems {items : List Json} (h : ∀ item ∈ items, item.Lexes) (level : Nat)
    (before : List Token) {rest : List Char} (hrest : Stops rest) :
    run ⟨.between, before⟩ (indentItems level items rest)
      = run ⟨.between, (tokensOfItems items).reverse ++ before⟩ rest := by
  induction items generalizing before with
  | nil => simp [indentItems, tokensOfItems]
  | cons item items ih =>
    rw [List.forall_mem_cons] at h
    rw [indentItems, run_comma, run_newLine, h.left _ _ _ (stops_indentItems level items hrest),
      ih h.right]
    simp [tokensOfItems]

theorem run_indentEntries {entries : List (Option String × Json)}
    (hkey : ∀ entry ∈ entries, entry.1.isSome = true) (h : ∀ entry ∈ entries, entry.2.Lexes)
    (level : Nat) (before : List Token) {rest : List Char} (hrest : Stops rest) :
    run ⟨.between, before⟩ (indentEntries level entries rest)
      = run ⟨.between, (tokensOfEntries entries).reverse ++ before⟩ rest := by
  induction entries generalizing before with
  | nil => simp [indentEntries, tokensOfEntries]
  | cons entry entries ih =>
    obtain ⟨key, value⟩ := entry
    rw [List.forall_mem_cons] at h hkey
    obtain ⟨text, rfl⟩ := Option.isSome_iff_exists.mp hkey.left
    rw [indentEntries, run_comma, run_newLine, run_writeString, run_colon,
      h.left _ _ _ (stops_indentEntries level entries hrest), ih hkey.right h.right]
    simp [tokensOfEntries]

theorem Printable.lexes {value : Json} (h : value.Printable) : value.Lexes := by
  intro level before rest hrest
  induction h generalizing level before rest with
  | null => exact run_null hrest
  | bool b => exact run_bool b hrest
  | number hnumeral => exact run_numeral hnumeral hrest
  | string text => exact run_writeString text rest
  | @array items _ ih =>
    cases items with
    | nil => rfl
    | cons item items =>
      rw [List.forall_mem_cons] at ih
      rw [writeIndented, run_beginArray, run_newLine,
        ih.left _ _ _ (stops_indentItems _ items (stops_newLine level _)),
        run_indentItems ih.right _ _ (stops_newLine level _), run_newLine, run_endArray]
      simp [tokens]
  | @object entries hkey _ ih =>
    cases entries with
    | nil => rfl
    | cons entry entries =>
      obtain ⟨key, value⟩ := entry
      rw [List.forall_mem_cons] at ih hkey
      obtain ⟨text, rfl⟩ := Option.isSome_iff_exists.mp hkey.left
      rw [writeIndented, run_beginObject, run_newLine, run_writeString, run_colon,
        ih.left _ _ _ (stops_indentEntries _ entries (stops_newLine level _)),
        run_indentEntries hkey.right ih.right _ _ (stops_newLine level _), run_newLine,
        run_endObject]
      simp [tokens]

def LexesCompact (value : Json) : Prop :=
  ∀ before rest, Stops rest →
    run ⟨.between, before⟩ (write value rest)
      = run ⟨.between, (tokens value).reverse ++ before⟩ rest

theorem stops_writeItems (items : List Json) {rest : List Char} (h : Stops rest) :
    Stops (writeItems items rest) := by
  cases items with
  | nil => exact h
  | cons item items => exact stops_cons _ (by decide)

theorem stops_writeEntries (entries : List (Option String × Json)) {rest : List Char}
    (h : Stops rest) : Stops (writeEntries entries rest) := by
  cases entries with
  | nil => exact h
  | cons entry entries => exact stops_cons _ (by decide)

theorem run_bareColon (before : List Token) (rest : List Char) :
    run ⟨.between, before⟩ (':' :: rest) = run ⟨.between, .colon :: before⟩ rest := rfl

theorem run_writeItems {items : List Json} (h : ∀ item ∈ items, item.LexesCompact)
    (before : List Token) {rest : List Char} (hrest : Stops rest) :
    run ⟨.between, before⟩ (writeItems items rest)
      = run ⟨.between, (tokensOfItems items).reverse ++ before⟩ rest := by
  induction items generalizing before with
  | nil => simp [writeItems, tokensOfItems]
  | cons item items ih =>
    rw [List.forall_mem_cons] at h
    rw [writeItems, run_comma, h.left _ _ (stops_writeItems items hrest), ih h.right]
    simp [tokensOfItems]

theorem run_writeEntries {entries : List (Option String × Json)}
    (hkey : ∀ entry ∈ entries, entry.1.isSome = true)
    (h : ∀ entry ∈ entries, entry.2.LexesCompact) (before : List Token) {rest : List Char}
    (hrest : Stops rest) :
    run ⟨.between, before⟩ (writeEntries entries rest)
      = run ⟨.between, (tokensOfEntries entries).reverse ++ before⟩ rest := by
  induction entries generalizing before with
  | nil => simp [writeEntries, tokensOfEntries]
  | cons entry entries ih =>
    obtain ⟨key, value⟩ := entry
    rw [List.forall_mem_cons] at h hkey
    obtain ⟨text, rfl⟩ := Option.isSome_iff_exists.mp hkey.left
    rw [writeEntries, run_comma, run_writeString, run_bareColon,
      h.left _ _ (stops_writeEntries entries hrest), ih hkey.right h.right]
    simp [tokensOfEntries]

theorem Printable.lexesCompact {value : Json} (h : value.Printable) : value.LexesCompact := by
  intro before rest hrest
  induction h generalizing before rest with
  | null => exact run_null hrest
  | bool b => exact run_bool b hrest
  | number hnumeral => exact run_numeral hnumeral hrest
  | string text => exact run_writeString text rest
  | @array items _ ih =>
    cases items with
    | nil => rfl
    | cons item items =>
      rw [List.forall_mem_cons] at ih
      have hend : Stops (']' :: rest) := stops_cons rest (by decide)
      rw [write, run_beginArray, ih.left _ _ (stops_writeItems items hend),
        run_writeItems ih.right _ hend, run_endArray]
      simp [tokens]
  | @object entries hkey _ ih =>
    cases entries with
    | nil => rfl
    | cons entry entries =>
      obtain ⟨key, value⟩ := entry
      rw [List.forall_mem_cons] at ih hkey
      obtain ⟨text, rfl⟩ := Option.isSome_iff_exists.mp hkey.left
      have hend : Stops ('\x7d' :: rest) := stops_cons rest (by decide)
      rw [write, run_beginObject, run_writeString, run_bareColon,
        ih.left _ _ (stops_writeEntries entries hend),
        run_writeEntries hkey.right ih.right _ hend, run_endObject]
      simp [tokens]

theorem tokens?_eq_run (text : List Char) :
    tokens? text = (run ⟨.between, []⟩ text).map (·.tokens.reverse) := by
  unfold tokens? run
  simp only [Option.bind_eq_bind]
  cases text.foldlM step ⟨.between, []⟩ with
  | none => rfl
  | some lexer =>
    rw [Option.bind_some, Option.bind_some]
    cases lexer.endWord with
    | none => rfl
    | some lexer => rfl

theorem Printable.tokens?_pretty {value : Json} (h : value.Printable) :
    tokens? value.pretty.toList = some value.tokens := by
  unfold pretty
  rw [String.toList_ofList, tokens?_eq_run, h.lexes 0 [] [] stops_nil]
  simp [run, endWord]

theorem Printable.tokens?_compact {value : Json} (h : value.Printable) :
    tokens? value.compact.toList = some value.tokens := by
  unfold compact
  rw [String.toList_ofList, tokens?_eq_run, h.lexesCompact [] [] stops_nil]
  simp [run, endWord]

end Lexer

section Parser

namespace Progress

def run (progress : Progress) (tokens : List Token) : Option Progress :=
  tokens.foldlM step progress

theorem run_cons (progress : Progress) (token : Token) (tokens : List Token) :
    progress.run (token :: tokens) = (progress.step token).bind (run · tokens) := by
  unfold run
  rw [List.foldlM_cons, Option.bind_eq_bind]

def Awaits (progress : Progress) (frames : List Frame) : Prop :=
  ∀ token ≠ .endArray, progress.step token = begin frames token

theorem awaits_value (frames : List Frame) : (within frames .value).Awaits frames := by
  intro token _
  rfl

theorem awaits_firstItem (items : List Json) (frames : List Frame) :
    (within (.array items :: frames) .firstItem).Awaits (.array items :: frames) := by
  intro token htoken
  cases token <;> first | rfl | exact absurd rfl htoken

end Progress

open Progress

def Parses (value : Json) : Prop :=
  ∀ (progress : Progress) frames rest, progress.Awaits frames →
    progress.run (tokens value ++ rest) = (place value frames).bind (run · rest)

theorem run_tokensOfItems {items : List Json} (h : ∀ item ∈ items, item.Parses)
    (before : List Json) (frames : List Frame) (rest : List Token) :
    (within (.array before :: frames) .separator).run (tokensOfItems items ++ rest)
      = (within (.array (items.reverse ++ before) :: frames) .separator).run rest := by
  induction items generalizing before with
  | nil => rfl
  | cons item items ih =>
    rw [List.forall_mem_cons] at h
    have hcomma : (within (.array before :: frames) .separator).step .comma
        = some (within (.array before :: frames) .value) := rfl
    rw [tokensOfItems, List.cons_append, List.append_assoc, run_cons, hcomma, Option.bind_some,
      h.left _ _ _ (awaits_value _), place, Option.bind_some, ih h.right]
    simp

theorem run_tokensOfEntries {entries : List (Option String × Json)}
    (h : ∀ entry ∈ entries, entry.2.Parses) (before : List (Option String × Json))
    (frames : List Frame) (rest : List Token) :
    (within (.object before :: frames) .separator).run (tokensOfEntries entries ++ rest)
      = (within (.object (entries.reverse ++ before) :: frames) .separator).run rest := by
  induction entries generalizing before with
  | nil => rfl
  | cons entry entries ih =>
    obtain ⟨key, value⟩ := entry
    rw [List.forall_mem_cons] at h
    have hcomma : (within (.object before :: frames) .separator).step .comma
        = some (within (.object before :: frames) .key) := rfl
    have hkey : (within (.object before :: frames) .key).step (.string key)
        = some (within (.entry before key :: frames) .colon) := rfl
    have hcolon : (within (.entry before key :: frames) .colon).step .colon
        = some (within (.entry before key :: frames) .value) := rfl
    rw [tokensOfEntries, List.cons_append, List.cons_append, List.cons_append, List.append_assoc,
      run_cons, hcomma, Option.bind_some, run_cons, hkey, Option.bind_some, run_cons, hcolon,
      Option.bind_some, h.left _ _ _ (awaits_value _), place, Option.bind_some, ih h.right]
    simp

theorem Printable.parses {value : Json} (h : value.Printable) : value.Parses := by
  intro progress frames rest hawaits
  induction h generalizing progress frames rest with
  | null =>
    rw [tokens, List.singleton_append, run_cons, hawaits _ (by simp)]
    rfl
  | bool b =>
    rw [tokens, List.singleton_append, run_cons, hawaits _ (by simp)]
    rfl
  | number hnumeral =>
    rw [tokens, List.singleton_append, run_cons, hawaits _ (by simp)]
    rfl
  | string text =>
    rw [tokens, List.singleton_append, run_cons, hawaits _ (by simp)]
    rfl
  | @array items _ ih =>
    cases items with
    | nil =>
      rw [tokens, List.cons_append, run_cons, hawaits _ (by simp)]
      rfl
    | cons item items =>
      rw [List.forall_mem_cons] at ih
      rw [tokens, List.cons_append, List.append_assoc, List.append_assoc, run_cons,
        hawaits _ (by simp), begin, Option.bind_some, ih.left _ _ _ (awaits_firstItem _ _), place,
        Option.bind_some, run_tokensOfItems ih.right, List.singleton_append, run_cons, step]
      simp
  | @object entries hkey _ ih =>
    cases entries with
    | nil =>
      rw [tokens, List.cons_append, run_cons, hawaits _ (by simp)]
      rfl
    | cons entry entries =>
      obtain ⟨key, value⟩ := entry
      rw [List.forall_mem_cons] at ih
      have hkey : (within (.object [] :: frames) .firstKey).step (.string key)
          = some (within (.entry [] key :: frames) .colon) := rfl
      have hcolon : (within (.entry [] key :: frames) .colon).step .colon
          = some (within (.entry [] key :: frames) .value) := rfl
      have hend (entries : List (Option String × Json)) :
          (within (.object entries :: frames) .separator).step .endObject
            = place (.object entries.reverse) frames := rfl
      rw [tokens, List.cons_append, List.cons_append, List.cons_append, List.append_assoc,
        List.append_assoc, run_cons, hawaits _ (by simp), begin, Option.bind_some, run_cons, hkey,
        Option.bind_some, run_cons, hcolon, Option.bind_some, ih.left _ _ _ (awaits_value _),
        place, Option.bind_some, run_tokensOfEntries ih.right, List.singleton_append, run_cons,
        hend]
      simp

theorem Printable.ofTokens?_tokens {value : Json} (h : value.Printable) :
    ofTokens? value.tokens = some value := by
  have hrun := h.parses (.within [] .value) [] [] (awaits_value [])
  rw [List.append_nil] at hrun
  unfold ofTokens?
  rw [show value.tokens.foldlM step (.within [] .value) = some (.complete value) from hrun]
  rfl

end Parser

theorem Printable.parse?_pretty {value : Json} (h : value.Printable) :
    parse? value.pretty = some value := by
  unfold parse?
  rw [h.tokens?_pretty]
  exact h.ofTokens?_tokens

theorem Printable.parse?_compact {value : Json} (h : value.Printable) :
    parse? value.compact = some value := by
  unfold parse?
  rw [h.tokens?_compact]
  exact h.ofTokens?_tokens

end CircuitPartition.Json

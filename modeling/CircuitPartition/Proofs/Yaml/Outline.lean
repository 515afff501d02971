import CircuitPartition.Proofs.Yaml.Lexer

/-!
Outlines: texts of headed parts, whose entries are words and lists of words. The lexer finds the
tokens that an outline is made of.
-/

namespace CircuitPartition.Yaml

inductive Contents where
  | word (text : String)
  | items (texts : List String)

structure Entry where
  key : String
  contents : Contents

structure Part where
  name : String
  entries : List Entry

namespace Contents

def Words : Contents → Prop
  | word text => Word text.toList
  | items texts => ∀ text ∈ texts, Word text.toList

def tokensOfItem (text : String) : List Token :=
  [.blockEntry, .scalar text .plain]

def tokens : Contents → List Token
  | word text => [.scalar text .plain]
  | items [] => [.flowSequenceStart, .flowSequenceEnd]
  | items texts => texts.flatMap tokensOfItem

end Contents

structure Entry.WellFormed (entry : Entry) : Prop where
  key : KeyWord entry.key.toList
  contents : entry.contents.Words

def Entry.tokens (entry : Entry) : List Token :=
  [.key, .scalar entry.key .plain, .value] ++ entry.contents.tokens

structure Part.WellFormed (part : Part) : Prop where
  name : KeyWord part.name.toList
  entries : ∀ entry ∈ part.entries, entry.WellFormed

def Part.tokensOfEntries : List Entry → List Token
  | [] => []
  | entries => [.blockMappingStart] ++ entries.flatMap Entry.tokens ++ [.blockEnd]

def Part.tokens (part : Part) : List Token :=
  [.key, .scalar part.name .plain, .value] ++ tokensOfEntries part.entries

def tokensOfOutline (parts : List Part) : List Token :=
  [.blockMappingStart] ++ parts.flatMap Part.tokens ++ [.blockEnd]

/-! ### Lines -/

structure Line where
  column : Nat
  content : List Char

namespace Line

def written : List Line → List Char
  | [] => []
  | line :: lines =>
    List.replicate line.column ' ' ++ (line.content ++ '\n' :: written lines)

def firstColumn : List Line → Nat
  | [] => 0
  | line :: _ => line.column

def unindented : List Line → List Char
  | [] => []
  | line :: lines => line.content ++ '\n' :: written lines

theorem newLine_unindented (lines : List Line) :
    newLine (firstColumn lines) (unindented lines) = '\n' :: written lines := by
  cases lines <;> rfl

theorem written_append (before after : List Line) :
    written (before ++ after) = written before ++ written after := by
  induction before with
  | nil => rfl
  | cons line before ih => simp [written, ih]

end Line

open Line (written firstColumn unindented newLine_unindented)

namespace Contents

def itemLine (text : String) : Line :=
  -- An item is indented as far as its key.
  ⟨2, '-' :: ' ' :: text.toList⟩

def lines (key : String) : Contents → List Line
  | word text => [⟨2, key.toList ++ ':' :: ' ' :: text.toList⟩]
  | items [] => [⟨2, key.toList ++ [':', ' ', '[', ']']⟩]
  | items texts => ⟨2, key.toList ++ [':']⟩ :: texts.map itemLine

end Contents

def Entry.lines (entry : Entry) : List Line :=
  entry.contents.lines entry.key

def Part.lines (part : Part) : List Line :=
  ⟨0, part.name.toList ++ [':']⟩ :: part.entries.flatMap Entry.lines

/-! ### Getting from line to line -/

namespace Lexer

def IsAt (l : Lexer) (tokens : List Token) (indents : List Nat) (lines : List Line) : Prop :=
  l.BeginsLine tokens indents (firstColumn lines) (unindented lines)

def Crosses (lines : List Line) (l next : Lexer) : Prop :=
  ∃ count ≤ (written lines).length, Reaches count l next

theorem Crosses.refl (l : Lexer) : Crosses [] l l :=
  ⟨0, Nat.zero_le _, fun _ => rfl⟩

theorem Crosses.append {before after : List Line} {l mid next : Lexer}
    (hleft : Crosses before l mid) (hright : Crosses after mid next) :
    Crosses (before ++ after) l next := by
  obtain ⟨m, hm, hleft⟩ := hleft
  obtain ⟨n, hn, hright⟩ := hright
  refine ⟨m + n, ?_, hleft.trans hright⟩
  rw [Line.written_append, List.length_append]
  exact Nat.add_le_add hm hn

/--
A key at the column belongs to a mapping inside of the outer levels. The key opens the mapping,
unless it is open already.
-/
structure Nests (indents : List Nat) (column : Nat) (outer : List Nat) (opens : Bool) : Prop where
  left : ∀ level ∈ outer.head?, level < column
  enclosing_eq : enclosing indents column = if opens then outer else column :: outer

section

variable {tokens : List Token} {indents outer : List Nat} {opens : Bool} {l : Lexer} {column : Nat}
  {key text : String} {rest : List Line}

def tokensOfKey (indents : List Nat) (column : Nat) (opens : Bool) (key : String) : List Token :=
  closing indents column ++ (if opens then [.blockMappingStart] else [])
    ++ [.key, .scalar key .plain, .value]

theorem reaches_value {chars : List Char} (hkey : KeyWord key.toList)
    (hnests : Nests indents column outer opens) (hchars : startsBlank chars = true)
    (hbegins : l.BeginsLine tokens indents column (key.toList ++ ':' :: chars)) :
    ∃ q : Position, column < q.column ∧ Reaches 2 l (placed false
      (tokens ++ tokensOfKey indents column opens key) (column :: outer) q chars) := by
  obtain ⟨p, rfl, harrive⟩ := hbegins
  rw [hnests.enclosing_eq] at harrive
  refine ⟨(p.past key.toList).next ':', ?_, ?_⟩
  . rw [Position.next, Position.column_past]
    dsimp only
    omega
  . have hreaches := reaches_key hkey hchars hnests.left opens harrive
    rw [String.ofList_toList] at hreaches
    simpa [tokensOfKey] using hreaches

theorem crosses_heading (hkey : KeyWord key.toList) (hnests : Nests indents column outer opens)
    (hrest : Solid (unindented rest))
    (hat : l.IsAt tokens indents (⟨column, key.toList ++ [':']⟩ :: rest)) :
    ∃ next, Crosses [⟨column, key.toList ++ [':']⟩] l next ∧
      next.IsAt (tokens ++ tokensOfKey indents column opens key) (column :: outer) rest := by
  unfold IsAt at hat
  rw [unindented, List.append_assoc, List.singleton_append, ← newLine_unindented] at hat
  obtain ⟨q, _, hreaches⟩ := reaches_value hkey hnests rfl hat
  refine ⟨_, ⟨2, ?_, hreaches⟩, beginsLine_newLine hrest⟩
  simp [written]
  omega

theorem crosses_word (hkey : KeyWord key.toList) (hnests : Nests indents column outer opens)
    (hword : Word text.toList) (hrest : Solid (unindented rest))
    (hcolumn : firstColumn rest ≤ column)
    (hat : l.IsAt tokens indents (⟨column, key.toList ++ ':' :: ' ' :: text.toList⟩ :: rest)) :
    ∃ next, Crosses [⟨column, key.toList ++ ':' :: ' ' :: text.toList⟩] l next ∧
      next.IsAt (tokens ++ tokensOfKey indents column opens key ++ [.scalar text .plain])
        (column :: outer) rest := by
  unfold IsAt at hat
  rw [unindented, List.append_assoc, List.cons_append, List.cons_append, ← newLine_unindented]
    at hat
  obtain ⟨q, hq, hreaches⟩ := reaches_value hkey hnests rfl hat
  obtain ⟨next, hword, hnext⟩ := reaches_word hword (Nat.lt_succ_of_lt hq) hcolumn hrest
    (arrives_blank (hword.solid _) (Nat.le_succ_of_le (Nat.le_of_lt hq)))
  rw [String.ofList_toList] at hnext
  refine ⟨next, ⟨3, ?_, hreaches.trans hword⟩, hnext⟩
  simp [written]
  omega

theorem crosses_brackets (hkey : KeyWord key.toList) (hnests : Nests indents column outer opens)
    (hrest : Solid (unindented rest))
    (hat : l.IsAt tokens indents (⟨column, key.toList ++ [':', ' ', '[', ']']⟩ :: rest)) :
    ∃ next, Crosses [⟨column, key.toList ++ [':', ' ', '[', ']']⟩] l next ∧
      next.IsAt (tokens ++ tokensOfKey indents column opens key
        ++ [.flowSequenceStart, .flowSequenceEnd]) (column :: outer) rest := by
  unfold IsAt at hat
  rw [unindented, List.append_assoc, List.cons_append, List.cons_append, List.cons_append,
    List.singleton_append, ← newLine_unindented] at hat
  obtain ⟨q, hq, hreaches⟩ := reaches_value hkey hnests rfl hat
  refine ⟨_, ⟨4, ?_, hreaches.trans (reaches_brackets (Nat.le_of_lt hq))⟩,
    beginsLine_newLine hrest⟩
  simp [written]
  omega

theorem crosses_item (hword : Word text.toList) (hrest : Solid (unindented rest))
    (hcolumn : firstColumn rest ≤ column)
    (hat : l.IsAt tokens (column :: outer) (⟨column, '-' :: ' ' :: text.toList⟩ :: rest)) :
    ∃ next, Crosses [⟨column, '-' :: ' ' :: text.toList⟩] l next ∧
      next.IsAt (tokens ++ [.blockEntry, .scalar text .plain]) (column :: outer) rest := by
  unfold IsAt at hat
  rw [unindented, List.cons_append, List.cons_append, ← newLine_unindented] at hat
  obtain ⟨p, hp, harrive⟩ := hat
  have hinside : ∀ level ∈ (column :: outer).head?, level ≤ column := by
    rintro _ ⟨⟩
    exact Nat.le_refl column
  rw [firstColumn, (nothing_closed hinside).left, (nothing_closed hinside).right, List.append_nil]
    at harrive
  obtain ⟨next, hreaches, hnext⟩ := reaches_item hword hp.symm hcolumn hrest harrive
  rw [String.ofList_toList] at hnext
  refine ⟨next, ⟨2, ?_, hreaches⟩, hnext⟩
  simp [written]
  omega

end

section

variable {tokens : List Token} {indents : List Nat} {opens : Bool} {l : Lexer} {rest : List Line}

def Follows (lines : List Line) : Prop :=
  Solid (unindented lines) ∧ firstColumn lines ≤ 2

theorem follows_items (texts : List String) (hrest : Follows rest) :
    Follows (texts.map Contents.itemLine ++ rest) := by
  cases texts with
  | nil => exact hrest
  | cons text texts =>
    refine ⟨?_, Nat.le_refl 2⟩
    rintro _ ⟨⟩
    decide

theorem follows_entry {entry : Entry} (h : entry.WellFormed) (lines : List Line) :
    Follows (entry.lines ++ lines) := by
  obtain ⟨key, contents⟩ := entry
  unfold Entry.lines Contents.lines
  split
  all_goals
    refine ⟨?_, Nat.le_refl 2⟩
    simp only [List.cons_append, unindented, List.append_assoc]
    exact h.key.solid _

theorem follows_entries {entries : List Entry} (h : ∀ entry ∈ entries, entry.WellFormed)
    (hrest : Follows rest) : Follows (entries.flatMap Entry.lines ++ rest) := by
  cases entries with
  | nil => exact hrest
  | cons entry entries =>
    rw [List.flatMap_cons, List.append_assoc]
    exact follows_entry (h entry List.mem_cons_self) _

theorem crosses_items {texts : List String} (h : ∀ text ∈ texts, Word text.toList)
    (hrest : Follows rest)
    (hat : l.IsAt tokens [2, 0] (texts.map Contents.itemLine ++ rest)) :
    ∃ next, Crosses (texts.map Contents.itemLine) l next ∧
      next.IsAt (tokens ++ texts.flatMap Contents.tokensOfItem) [2, 0] rest := by
  induction texts generalizing l tokens with
  | nil =>
    rw [List.flatMap_nil, List.append_nil]
    exact ⟨l, .refl l, hat⟩
  | cons text texts ih =>
    rw [List.forall_mem_cons] at h
    obtain ⟨hsolid, hcolumn⟩ := follows_items texts hrest
    obtain ⟨mid, hitem, hmid⟩ := crosses_item h.left hsolid hcolumn hat
    obtain ⟨next, hitems, hnext⟩ := ih h.right hmid
    refine ⟨next, hitem.append hitems, ?_⟩
    rwa [List.append_assoc] at hnext

theorem crosses_entry {entry : Entry} (h : entry.WellFormed) (hnests : Nests indents 2 [0] opens)
    (hrest : Follows rest) (hat : l.IsAt tokens indents (entry.lines ++ rest)) :
    ∃ next, Crosses entry.lines l next ∧ next.IsAt
      (tokens ++ tokensOfKey indents 2 opens entry.key ++ entry.contents.tokens) [2, 0] rest := by
  obtain ⟨key, contents⟩ := entry
  obtain ⟨hkey, hwords⟩ := h
  unfold Entry.lines at *
  unfold Contents.lines Contents.tokens at *
  cases contents with
  | word text => exact crosses_word hkey hnests hwords hrest.left hrest.right hat
  | items texts =>
    cases texts with
    | nil => exact crosses_brackets hkey hnests hrest.left hat
    | cons text texts =>
      obtain ⟨mid, hheading, hmid⟩ := crosses_heading hkey hnests
        (follows_items (text :: texts) hrest).left hat
      obtain ⟨next, hitems, hnext⟩ := crosses_items hwords hrest hmid
      exact ⟨next, hheading.append hitems, hnext⟩

theorem crosses_entries {entries : List Entry} (h : ∀ entry ∈ entries, entry.WellFormed)
    (hrest : Follows rest) (hat : l.IsAt tokens [2, 0] (entries.flatMap Entry.lines ++ rest)) :
    ∃ next, Crosses (entries.flatMap Entry.lines) l next ∧
      next.IsAt (tokens ++ entries.flatMap Entry.tokens) [2, 0] rest := by
  induction entries generalizing l tokens with
  | nil =>
    rw [List.flatMap_nil, List.flatMap_nil, List.append_nil]
    exact ⟨l, .refl l, hat⟩
  | cons entry entries ih =>
    rw [List.forall_mem_cons] at h
    rw [List.flatMap_cons, List.append_assoc] at hat
    have hnests : Nests [2, 0] 2 [0] false := ⟨by decide, rfl⟩
    obtain ⟨mid, hentry, hmid⟩ := crosses_entry h.left hnests (follows_entries h.right hrest) hat
    obtain ⟨next, hentries, hnext⟩ := ih h.right hmid
    refine ⟨next, hentry.append hentries, ?_⟩
    simpa [Entry.tokens, tokensOfKey, closing] using hnext

def IsBetween (l : Lexer) (tokens : List Token) (lines : List Line) : Prop :=
  ∃ before indents, l.IsAt before indents lines ∧ Nests indents 0 [] false ∧
    tokens = before ++ closing indents 0

theorem crosses_part {part : Part} (h : part.WellFormed) (hnests : Nests indents 0 [] opens)
    (hrest : Follows rest) (hat : l.IsAt tokens indents (part.lines ++ rest)) :
    ∃ next, Crosses part.lines l next ∧ next.IsBetween
      (tokens ++ tokensOfKey indents 0 opens part.name ++ Part.tokensOfEntries part.entries)
      rest := by
  obtain ⟨name, entries⟩ := part
  obtain ⟨mid, hheading, hmid⟩ := crosses_heading h.name hnests
    (follows_entries h.entries hrest).left hat
  cases entries with
  | nil =>
    refine ⟨mid, hheading, _, [0], hmid, ⟨by decide, rfl⟩, ?_⟩
    simp [Part.tokensOfEntries, closing]
  | cons entry entries =>
    have hentries := h.entries
    rw [List.forall_mem_cons] at hentries
    rw [List.flatMap_cons, List.append_assoc] at hmid
    have hopens : Nests [0] 2 [0] true := ⟨by decide, rfl⟩
    obtain ⟨first, hentry, hfirst⟩ := crosses_entry hentries.left hopens
      (follows_entries hentries.right hrest) hmid
    obtain ⟨next, hcrosses, hnext⟩ := crosses_entries hentries.right hrest hfirst
    refine ⟨next, hheading.append (hentry.append hcrosses), _, [2, 0], hnext, ⟨by decide, rfl⟩, ?_⟩
    simp [Part.tokensOfEntries, Entry.tokens, tokensOfKey, closing]

theorem follows_parts (parts : List Part) (h : ∀ part ∈ parts, part.WellFormed) :
    Follows (parts.flatMap Part.lines) := by
  cases parts with
  | nil => exact ⟨by rintro _ ⟨⟩, Nat.zero_le 2⟩
  | cons part parts =>
    refine ⟨?_, Nat.zero_le 2⟩
    have hname := (h part List.mem_cons_self).name
    rw [List.flatMap_cons, Part.lines, List.cons_append, unindented, List.append_assoc]
    exact hname.solid _

theorem crosses_parts {parts : List Part} (h : ∀ part ∈ parts, part.WellFormed)
    (hat : l.IsBetween tokens (parts.flatMap Part.lines)) :
    ∃ next, Crosses (parts.flatMap Part.lines) l next ∧
      next.IsBetween (tokens ++ parts.flatMap Part.tokens) [] := by
  induction parts generalizing l tokens with
  | nil =>
    rw [List.flatMap_nil, List.flatMap_nil, List.append_nil]
    exact ⟨l, .refl l, hat⟩
  | cons part parts ih =>
    rw [List.forall_mem_cons] at h
    obtain ⟨before, indents, hat, hnests, rfl⟩ := hat
    obtain ⟨mid, hpart, hmid⟩ := crosses_part h.left hnests (follows_parts parts h.right) hat
    obtain ⟨next, hparts, hnext⟩ := ih h.right hmid
    refine ⟨next, hpart.append hparts, ?_⟩
    simpa [Part.tokens, tokensOfKey] using hnext

end

theorem run?_start {part : Part} {parts : List Part} (hpart : part.WellFormed)
    (hparts : ∀ part ∈ parts, part.WellFormed) :
    ∃ final, run? ((written ((part :: parts).flatMap Part.lines)).length + 1)
        (start (written ((part :: parts).flatMap Part.lines))) = some final ∧
      final.tokens.toList = tokensOfOutline (part :: parts) := by
  have hsolid := follows_parts (part :: parts) (List.forall_mem_cons.mpr ⟨hpart, hparts⟩)
  have hstart : (start (written ((part :: parts).flatMap Part.lines))).IsAt [] []
      (part.lines ++ parts.flatMap Part.lines) :=
    ⟨.start, rfl, arrives_within (skipBlanks_of_solid hsolid.left) (by rintro _ ⟨⟩)⟩
  have hopens : Nests [] 0 [] true := ⟨by decide, rfl⟩
  obtain ⟨mid, hfirst, hmid⟩ := crosses_part hpart hopens (follows_parts parts hparts) hstart
  obtain ⟨next, hrest, before, indents, hnext, hnests, htokens⟩ := crosses_parts hparts hmid
  obtain ⟨count, hcount, hreaches⟩ := hfirst.append hrest
  obtain ⟨final, hfinal, heq⟩ := BeginsLine.run? hnext
    ((written (part.lines ++ parts.flatMap Part.lines)).length - count)
  refine ⟨final, ?_, ?_⟩
  . rw [List.flatMap_cons, ← hfinal, ← hreaches]
    congr 1
    omega
  . rw [heq, hnests.enclosing_eq, ← htokens]
    simp [tokensOfOutline, Part.tokens, tokensOfKey, closing]

end Lexer

/-! ### Characters -/

def isQuiet (c : Char) : Bool :=
  isPrintable c && c != '\r' && c != '\u0085'

theorem isQuiet_of_isInert {c : Char} (h : isInert c = true) : isQuiet c = true := by
  simp [isQuiet, isPrintable_of_isInert h, ne_of_isInert h (d := '\r') rfl,
    ne_of_isInert h (d := '\u0085') rfl]

theorem isPrintable_of_isQuiet {c : Char} (h : isQuiet c = true) : isPrintable c = true := by
  simp only [isQuiet, Bool.and_eq_true] at h
  exact h.left.left

theorem normalizeBreaks_of_quiet {text : List Char} (h : ∀ c ∈ text, isQuiet c = true) :
    normalizeBreaks text = text := by
  induction text with
  | nil => rfl
  | cons c text ih =>
    rw [List.forall_mem_cons] at h
    obtain ⟨hquiet, htext⟩ := h
    simp only [isQuiet, Bool.and_eq_true, bne_iff_ne] at hquiet
    obtain ⟨⟨_, hreturn⟩, hnext⟩ := hquiet
    rw [normalizeBreaks, ih htext]
    . exact fun _ heq _ => hreturn heq
    . exact hreturn
    . exact hnext

theorem quiet_written {lines : List Line}
    (h : ∀ line ∈ lines, ∀ c ∈ line.content, isQuiet c = true) :
    ∀ c ∈ written lines, isQuiet c = true := by
  induction lines with
  | nil => exact List.forall_mem_nil _
  | cons line lines ih =>
    rw [List.forall_mem_cons] at h
    rw [written, List.forall_mem_append, List.forall_mem_append, List.forall_mem_cons]
    refine ⟨?_, h.left, rfl, ih h.right⟩
    intro c hc
    rw [List.eq_of_mem_replicate hc]
    rfl

theorem Word.quiet {word : List Char} (h : Word word) : ∀ c ∈ word, isQuiet c = true :=
  fun c hc => isQuiet_of_isInert (h.inert c hc)

theorem Entry.WellFormed.quiet {entry : Entry} (h : entry.WellFormed) :
    ∀ line ∈ entry.lines, ∀ c ∈ line.content, isQuiet c = true := by
  obtain ⟨key, contents⟩ := entry
  obtain ⟨hkey, hwords⟩ := h
  unfold Entry.lines Contents.lines
  cases contents with
  | word text =>
    rw [List.forall_mem_singleton, List.forall_mem_append, List.forall_mem_cons,
      List.forall_mem_cons]
    exact ⟨hkey.quiet, rfl, rfl, Word.quiet hwords⟩
  | items texts =>
    cases texts with
    | nil =>
      rw [List.forall_mem_singleton, List.forall_mem_append]
      exact ⟨hkey.quiet, List.all_eq_true.mp rfl⟩
    | cons text texts =>
      rw [List.forall_mem_cons, List.forall_mem_append, List.forall_mem_map]
      refine ⟨⟨hkey.quiet, List.all_eq_true.mp rfl⟩, ?_⟩
      intro other hother
      rw [Contents.itemLine, List.forall_mem_cons, List.forall_mem_cons]
      exact ⟨rfl, rfl, Word.quiet (hwords other hother)⟩

theorem Part.WellFormed.quiet {part : Part} (h : part.WellFormed) :
    ∀ line ∈ part.lines, ∀ c ∈ line.content, isQuiet c = true := by
  rw [Part.lines, List.forall_mem_cons, List.forall_mem_append]
  refine ⟨⟨h.name.quiet, List.all_eq_true.mp rfl⟩, ?_⟩
  intro line hline
  obtain ⟨entry, hentry, hline⟩ := List.mem_flatMap.mp hline
  exact (h.entries entry hentry).quiet line hline

def textOfOutline (parts : List Part) : String :=
  String.ofList (written (parts.flatMap Part.lines))

theorem tokens?_textOfOutline {parts : List Part} (hne : parts ≠ [])
    (h : ∀ part ∈ parts, part.WellFormed) :
    tokens? (textOfOutline parts) = some (tokensOfOutline parts) := by
  obtain ⟨part, parts, rfl⟩ := List.exists_cons_of_ne_nil hne
  have hquiet : ∀ c ∈ written ((part :: parts).flatMap Part.lines), isQuiet c = true := by
    apply quiet_written
    intro line hline
    obtain ⟨other, hother, hline⟩ := List.mem_flatMap.mp hline
    exact (h other hother).quiet line hline
  obtain ⟨final, hfinal, htokens⟩ := Lexer.run?_start (h part List.mem_cons_self)
    fun other hother => h other (List.mem_cons_of_mem _ hother)
  have hprintable : (written ((part :: parts).flatMap Part.lines)).all isPrintable = true :=
    List.all_eq_true.mpr fun c hc => isPrintable_of_isQuiet (hquiet c hc)
  unfold tokens? textOfOutline
  rw [String.toList_ofList, hprintable, normalizeBreaks_of_quiet hquiet]
  dsimp only
  rw [hfinal, ← htokens]
  rfl

end CircuitPartition.Yaml

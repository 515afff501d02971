import CircuitPartition.Json.Form
import CircuitPartition.Proofs.Context
import CircuitPartition.Proofs.Json.Record
import CircuitPartition.Proofs.Lookup

/-!
The JSON forms of details and reports. A context is written in the order of its keys, so that the
text tells what a key was given last but not in which order the keys were added.
-/

namespace CircuitPartition

open JsonForm

theorem JsonForm.ofText?_of_printable {β : Type} [JsonForm β] {value : β}
    (hprintable : (toJson value).Printable) (hread : ofJson? (toJson value) = some value) :
    ofText? (toText value) = some value := by
  unfold ofText? toText
  rw [hprintable.parse?_compact, Option.bind_some, hread]

theorem JsonForm.contextOfJson?_contextToJson (context : Context) :
    contextOfJson? (contextToJson context) = some (.ofList context) := by
  unfold contextOfJson? contextToJson Json.ofFields
  dsimp only
  rw [List.map_map, List.mapM_map, mapM_of_found (g := id)]
  . simp
  . intro entry _
    rfl

theorem JsonForm.printable_contextToJson (context : Context) :
    (contextToJson context).Printable := by
  apply Json.printable_ofFields
  intro entry hentry
  obtain ⟨⟨key, value⟩, _, rfl⟩ := List.mem_map.mp hentry
  exact Json.printable_ofString value

namespace Detail

theorem printable_toJson (d : Detail) : (toJson d).Printable := by
  apply Json.printable_ofFields
  cases d.hint with
  | none => simp [Json.printable_ofString, printable_contextToJson]
  | some hint => simp [Json.printable_ofString, printable_contextToJson]

theorem record?_toJson (d : Detail) :
    (toJson d).record? [⟨"code", .required⟩, ⟨"message", .required⟩, ⟨"context", .defaulted⟩,
        ⟨"hint", .optional⟩]
      = some [some (.ofString d.code), some (.ofString d.message),
        some (contextToJson d.context), d.hint.map .ofString] := by
  obtain ⟨code, message, context, hint⟩ := d
  cases hint with
  | none => rfl
  | some hint => exact Json.record?_ofFields (by decide) rfl

theorem ofJson?_toJson {d : Detail} (h : d.context.Ascending) : ofJson? (toJson d) = some d := by
  have hhint : Json.optional? Json.text? (d.hint.map Json.ofString) = some d.hint := by
    cases d.hint with
    | none => rfl
    | some hint => rfl
  have hcontext : Json.orDefault? [] contextOfJson? (some (contextToJson d.context))
      = some d.context := by
    rw [Json.orDefault?, contextOfJson?_contextToJson, h.ofList_eq]
  have hrecord := d.record?_toJson
  -- Unfolding the instance would also unfold what is read, unless that is a variable.
  generalize toJson d = value at hrecord ⊢
  unfold instDetail
  dsimp only
  rw [hrecord]
  simp [hhint, hcontext, Json.ofString, Json.text?]

theorem ofText?_toText {d : Detail} (h : d.context.Ascending) : ofText? (toText d) = some d :=
  ofText?_of_printable d.printable_toJson (ofJson?_toJson h)

theorem toText_inj {d d' : Detail} (h : d.context.Ascending) (h' : d'.context.Ascending) :
    toText d = toText d' ↔ d = d' := by
  constructor
  . intro heq
    rw [← Option.some.injEq, ← ofText?_toText h, ← ofText?_toText h', heq]
  . rintro rfl
    rfl

theorem ofEntries_eq_iff {code code' message message' : String}
    {entries entries' : List (String × String)} {hint hint' : Option String} :
    ofEntries code message entries hint = ofEntries code' message' entries' hint'
      ↔ code = code' ∧ message = message' ∧ hint = hint' ∧
        ∀ key, Context.lastValue? entries key = Context.lastValue? entries' key := by
  unfold ofEntries
  rw [Detail.mk.injEq, Context.ofList_eq_iff]
  tauto

end Detail

namespace Report

theorem printable_toJson (r : Report) : (toJson r).Printable := by
  apply Json.printable_ofFields
  simp [Json.printable_ofString, Detail.printable_toJson]

theorem ofJson?_toJson {r : Report} (h : r.detail.context.Ascending) :
    ofJson? (toJson r) = some r := by
  have hvalue : toJson r = .object [(some "family", .ofString r.family.tag),
      (some "detail", toJson r.detail)] := rfl
  have hrecord : (toJson r).record? [⟨"family", .required⟩, ⟨"detail", .required⟩]
      = some [some (.ofString r.family.tag), some (toJson r.detail)] :=
    Json.record?_ofFields (by decide) rfl
  have hfamily : keyedFamilyOfJson? (.ofString r.family.tag) = some r.family :=
    r.family.ofTag?_tag
  have hprecedes : precedes [(some "family", .ofString r.family.tag),
      (some "detail", toJson r.detail)] "detail" "family" = false := rfl
  generalize toJson r = value at hvalue hrecord ⊢
  unfold instReport
  dsimp only
  rw [hrecord, hvalue]
  simp [hprecedes, hfamily, Detail.ofJson?_toJson h]

theorem ofText?_toText {r : Report} (h : r.detail.context.Ascending) :
    ofText? (toText r) = some r :=
  ofText?_of_printable r.printable_toJson (ofJson?_toJson h)

end Report

theorem Failure.ascending_report? {failure : Failure Double} {r : Report}
    (h : failure.report? = some r) : r.detail.context.Ascending := by
  cases failure with
  | graph cause =>
    obtain rfl := Option.some.inj h
    cases cause <;> exact Context.ascending_ofList _
  | config cause =>
    obtain rfl := Option.some.inj h
    cases cause <;> exact Context.ascending_ofList _
  | precondition cause =>
    obtain rfl := Option.some.inj h
    cases cause <;> exact Context.ascending_ofList _
  | document cause =>
    obtain rfl := Option.some.inj h
    cases cause <;> exact Context.ascending_ofList _
  | fault cause => exact nomatch h

namespace Report

/--
Whatever is reported comes back from its text, above all what the failures of this library are
reported as. The texts of two details are the same just if these agree in code, message and hint and
in what each key was given last, whatever the order in which it was given; then they read the same,
too.
-/
theorem text_faithful :
    (∀ r : Report, r.detail.context.Ascending → ofText? (toText r) = some r) ∧
      (∀ (failure : Failure Double) (r : Report), failure.report? = some r →
        ofText? (toText r) = some r) ∧
      ∀ code message entries hint code' message' entries' hint',
        let detail := Detail.ofEntries code message entries hint
        let detail' := Detail.ofEntries code' message' entries' hint'
        detail.context.Ascending ∧
          (toText detail = toText detail'
            ↔ code = code' ∧ message = message' ∧ hint = hint' ∧
              ∀ key, Context.lastValue? entries key = Context.lastValue? entries' key) ∧
          (toText detail = toText detail' → detail.toString = detail'.toString) := by
  refine ⟨fun _ => ofText?_toText, fun _ _ h => ofText?_toText (Failure.ascending_report? h), ?_⟩
  intro code message entries hint code' message' entries' hint'
  have h := Context.ascending_ofList entries
  have h' := Context.ascending_ofList entries'
  refine ⟨h, ?_, ?_⟩
  . rw [Detail.toText_inj h h', Detail.ofEntries_eq_iff]
  . intro heq
    rw [(Detail.toText_inj h h').mp heq]

def escapes : String :=
  "a \"quote\", a \\, a line\n, a bell\x07, a delete\x7f, é and 😀"

def repeated : Report :=
  ⟨.config, .ofEntries "" escapes [("b", "1"), ("", "\t"), ("b", "2")] (some "")⟩

theorem text_faithful_repeated :
    repeated.detail.context.Ascending ∧ ofText? (toText repeated) = some repeated ∧
      (Failure.graph .missingClockPeriod).report? = some (GraphError.report .missingClockPeriod) ∧
      ofText? (toText (GraphError.report .missingClockPeriod))
        = some (GraphError.report .missingClockPeriod) ∧
      toText repeated.detail
        = toText (Detail.ofEntries "" escapes [("", "\t"), ("b", "2")] (some "")) ∧
      repeated.detail.toString
        = (Detail.ofEntries "" escapes [("", "\t"), ("b", "2")] (some "")).toString ∧
      toText repeated.detail ≠ toText { repeated.detail with hint := none } := by
  obtain ⟨hback, hreport, hagree⟩ := text_faithful
  obtain ⟨hascending, hiff, hwording⟩ := hagree "" escapes [("b", "1"), ("", "\t"), ("b", "2")]
    (some "") "" escapes [("", "\t"), ("b", "2")] (some "")
  have hlast := Context.ofList_eq_iff.mp (show Context.ofList [("b", "1"), ("", "\t"), ("b", "2")]
    = Context.ofList [("", "\t"), ("b", "2")] by decide)
  have htext := hiff.mpr ⟨rfl, rfl, rfl, hlast⟩
  refine ⟨hascending, hback repeated hascending, rfl, hreport (.graph .missingClockPeriod) _ rfl,
    htext, hwording htext, ?_⟩
  intro heq
  obtain ⟨_, hiff, _⟩ := hagree "" escapes [("b", "1"), ("", "\t"), ("b", "2")] (some "")
    "" escapes [("b", "1"), ("", "\t"), ("b", "2")] none
  exact nomatch (hiff.mp heq).right.right.left

end Report

end CircuitPartition

-- SUMMARY: The name of a source and the sink for its fault have no part in what is parsed.
import LuaSource.Proofs.Checked.Chunk

/-!
# Names and reports

A fault carries the name of its source, and that is all the name does. A sink holds what it held
before, and behind that the faults of the sources parsed since.
-/

namespace LuaSource

/-! ## Names -/

/-- The same tree, or the same fault at the same place under two names. -/
inductive Renamed (a b : String) : Except ParseError Block → Except ParseError Block → Prop
  | tree (block : Block) : Renamed a b (.ok block) (.ok block)
  | fault (fault : Located ParseFault) :
    Renamed a b (.error { fault with chunkName := a }) (.error { fault with chunkName := b })

theorem parse_renamed (source : String) (options : ParseOptions) (a b : String) :
    Renamed a b (parse source { options with chunkName := a })
      (parse source { options with chunkName := b }) := by
  rw [parse, parse]
  cases (Tokens.ofSource source options.skipShebang).parse options.maxDepth with
  | ok block => exact .tree block
  | error fault => exact .fault fault

/-! ## Reports -/

/-- What is reported of a source: its fault, if it has one. -/
def diagnostic? (source : String) (options : ParseOptions) : Option Diagnostic :=
  match parse source options with
  | .ok _ => none
  | .error e => some {
      message := messageAt e.cause.message e.span.start
      span := e.span
      code := e.cause.code
      severity := .error
      chunkName := options.chunkName }

theorem chunkName_of_parse {source : String} {options : ParseOptions} {e : ParseError}
    (h : parse source options = .error e) : e.chunkName = options.chunkName := by
  rw [parse] at h
  cases hparse : (Tokens.ofSource source options.skipShebang).parse options.maxDepth with
  | ok block =>
    rw [hparse] at h
    cases h
  | error fault =>
    rw [hparse] at h
    cases h
    rfl

theorem parseReporting_eq (source : String) (options : ParseOptions) (sink : Sink) :
    parseReporting source options sink =
      (parse source options, ⟨sink.reports ++ (diagnostic? source options).toList⟩) := by
  rw [parseReporting, diagnostic?]
  cases h : parse source options with
  | ok block => simp
  | error e =>
    have hname := chunkName_of_parse h
    simp [Sink.report, ParseError.toDiagnostic, ParseError.message, ParseError.code, hname]

/-- Each source is parsed as if it were alone, and its fault comes behind all earlier ones. -/
theorem parseAllReporting_eq (sources : List (String × ParseOptions)) (sink : Sink) :
    parseAllReporting sources sink =
      (sources.map fun (source, options) => parse source options,
        ⟨sink.reports ++
          sources.filterMap fun (source, options) => diagnostic? source options⟩) := by
  induction sources generalizing sink with
  | nil => simp [parseAllReporting]
  | cons s sources ih =>
    obtain ⟨source, options⟩ := s
    rw [parseAllReporting, parseReporting_eq]
    dsimp only
    rw [ih, List.map_cons, List.filterMap_cons]
    cases diagnostic? source options <;> simp

/-- What a sink holds after some of the sources it still holds, in place, after all of them. -/
theorem reports_prefix (sources : List (String × ParseOptions)) (sink : Sink) (n : Nat) :
    (parseAllReporting (sources.take n) sink).2.reports <+:
      (parseAllReporting sources sink).2.reports := by
  rw [parseAllReporting_eq, parseAllReporting_eq]
  exact (List.prefix_append_right_inj _).2 ((List.take_prefix n sources).filterMap _)

/-! ## Gravest reports -/

theorem Severity.max_eq_error_iff {s t : Severity} : max s t = error ↔ s = error ∨ t = error := by
  cases s <;> cases t <;> decide

theorem Severity.foldl_max_eq_error_iff {s : Severity} {ss : List Severity} :
    ss.foldl max s = error ↔ ∃ t ∈ s :: ss, t = error := by
  induction ss generalizing s with
  | nil => simp only [List.foldl_nil, List.mem_singleton, exists_eq_left]
  | cons t ss ih =>
    rw [List.foldl_cons, ih]
    simp only [List.exists_mem_cons_iff, max_eq_error_iff, or_assoc]

/-- An error is graver than all else that is in a sink. -/
theorem Sink.worst?_eq_error_iff {s : Sink} :
    s.worst? = some .error ↔ ∃ d ∈ s.reports, d.severity = .error := by
  obtain ⟨reports⟩ := s
  cases reports with
  | nil => simp [worst?]
  | cons d ds =>
    rw [worst?, List.map_cons, List.max?_cons', Option.some_inj, Severity.foldl_max_eq_error_iff,
      ← List.map_cons]
    simp only [List.mem_map, exists_exists_and_eq_and]

theorem severity_of_diagnostic? {source : String} {options : ParseOptions} {d : Diagnostic}
    (h : diagnostic? source options = some d) : d.severity = .error := by
  rw [diagnostic?] at h
  split at h
  · cases h
  · cases h
    rfl

/-- One fault makes an error the gravest that is reported. Without any the sink is as grave as it
was. -/
theorem worst?_parseAllReporting (sources : List (String × ParseOptions)) (sink : Sink) :
    (parseAllReporting sources sink).2.worst? =
      if ∀ s ∈ sources, diagnostic? s.1 s.2 = none then sink.worst? else some .error := by
  rw [parseAllReporting_eq]
  split
  · next hnone => rw [List.filterMap_eq_nil_iff.2 hnone, List.append_nil]
  · next hsome =>
    obtain ⟨s, hs, hfault⟩ := by simpa only [not_forall, exists_prop] using hsome
    obtain ⟨d, hd⟩ := Option.ne_none_iff_exists'.1 hfault
    exact Sink.worst?_eq_error_iff.2 ⟨d,
      List.mem_append_right _ (List.mem_filterMap.2 ⟨s, hs, hd⟩), severity_of_diagnostic? hd⟩

/-! ## Names and sinks -/

/-- Neither the name that the parser carries nor the sink changes what is parsed, and a sink is
handed one report for each source that has a fault, in the order of the sources. -/
theorem name_and_sink_inert (source : String) (options : ParseOptions) (a b : String)
    (sources : List (String × ParseOptions)) (sink : Sink) :
    Renamed a b (parse source { options with chunkName := a })
        (parse source { options with chunkName := b }) ∧
      (∃ r s, Checked.parse source { options with chunkName := a } = some r ∧
        Checked.parse source { options with chunkName := b } = some s ∧ Renamed a b r s) ∧
      (parseAllReporting sources sink).1 =
        (sources.map fun (source, options) => parse source options) ∧
      (parseAllReporting sources sink).2.reports =
        sink.reports ++ (sources.filterMap fun (source, options) => diagnostic? source options) ∧
      ∀ n, (parseAllReporting (sources.take n) sink).2.reports <+:
        (parseAllReporting sources sink).2.reports := by
  have hrenamed := parse_renamed source options a b
  refine ⟨hrenamed, ⟨_, _, Checked.parse_eq _ _, Checked.parse_eq _ _, hrenamed⟩, ?_, ?_,
    reports_prefix sources sink⟩
  · rw [parseAllReporting_eq]
  · rw [parseAllReporting_eq]

end LuaSource

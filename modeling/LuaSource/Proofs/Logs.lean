-- SUMMARY: A log takes nothing from what it is kept of: the calls of a lexer, and parses.
import LuaSource.Chunk
import LuaSource.Proofs.Lexer.Cover

/-!
# Logs

Calls of a lexer answer with a log as they do without one. The log gets a record for each token that
they answer with, and none for an error. Of a parse it gets two lines, and they tell whether it has
failed, whatever the source is called.
-/

namespace LuaSource

/-! ## Calls -/

namespace Lexer

variable {l : Lexer} {n : Nat}

/-- What a log gets of an answer. -/
def records : Except (Located LexError) Token → List LogRecord
  | .ok t => [t.logRecord]
  | .error _ => []

/-- A logged call is a call, and what it adds to the log is told by its answer. -/
theorem nextLogged_eq (l : Lexer) (log : List LogRecord) :
    l.nextLogged log = (l.next.1, l.next.2, log ++ records l.next.1) := by
  unfold nextLogged
  split
  · next t l' h => rw [h, records]
  · next e l' h => rw [h, records, List.append_nil]

/-- What a number of calls answer. -/
def answers (l : Lexer) (n : Nat) : List (Except (Located LexError) Token) :=
  (List.range n).map l.answer

theorem answers_succ : l.answers (n + 1) = l.next.1 :: l.next.2.answers n := by
  rw [answers, List.range_succ_eq_map, List.map_cons, List.map_map]
  rfl

/-- What a number of logged calls answer, and the lexer and the log behind them. -/
def runLogged (l : Lexer) (log : List LogRecord) :
    Nat → List (Except (Located LexError) Token) × Lexer × List LogRecord
  | 0 => ([], l, log)
  | n + 1 =>
    let (answer, l, log) := l.nextLogged log
    let (answers, l, log) := l.runLogged log n
    (answer :: answers, l, log)

/-- Logged calls answer as they would without a log, and leave the lexer where it would be. What was
in the log stays, and behind it come the tokens of the answers. -/
theorem runLogged_eq (l : Lexer) (log : List LogRecord) (n : Nat) :
    l.runLogged log n = (l.answers n, l.after n, log ++ (l.answers n).flatMap records) := by
  induction n generalizing l log with
  | zero => exact congrArg (_, _, ·) (List.append_nil log).symm
  | succ n ih =>
    rw [runLogged, nextLogged_eq]
    dsimp only
    rw [ih, answers_succ, List.flatMap_cons, List.append_assoc]
    rfl

/-- Calls up to the end, or to the first error, answer with the tokens from the place on. -/
theorem At.answers_eq {p : Place} {ts : List Token} {r : Except (Located LexError) Token}
    (h : l.At p) (hy : p.Yields ts r) : l.answers (ts.length + 1) = ts.map .ok ++ [r] := by
  obtain ⟨htokens, hending, -⟩ := h.yields hy
  have hmap : (List.range ts.length).map l.answer = ts.map .ok := by
    refine List.ext_getElem (by simp) fun n _ hn => ?_
    rw [List.getElem_map, List.getElem_map, List.getElem_range]
    exact htokens n (by rwa [List.length_map] at hn)
  rw [answers, List.range_succ, List.map_append, List.map_singleton, hmap, hending]

/-- Where a source is read to its end, or to its first error, the log has its tokens in their order.
The end is one of them, and the error is not. -/
theorem log_ofSource (source : String) (skipShebang : Bool) (log : List LogRecord) :
    let ts := Tokens.ofSource source skipShebang
    ((ofSource source skipShebang).runLogged log (ts.tokens.length + 1)).2.2 =
      log ++ ts.tokens.map Token.logRecord ++ records ts.ending := by
  have hyields : Place.Yields _ (Tokens.ofSource source skipShebang).tokens _ :=
    Place.yields_ofPlace (Place.ofSource source.toList skipShebang)
  have hanswers := (at_ofSource source skipShebang).answers_eq hyields
  have hrecords (ts : List Token) : (ts.map .ok).flatMap records = ts.map Token.logRecord := by
    rw [List.flatMap_map, List.map_eq_flatMap]
    rfl
  dsimp only
  rw [runLogged_eq, hanswers, List.flatMap_append, hrecords, List.flatMap_singleton,
    List.append_assoc]
  rfl

end Lexer

/-! ## Parses -/

/-- The line of a log says that a parse has failed. -/
def LogRecord.TellsFailure (r : LogRecord) : Prop :=
  "DEBUG parse failed [".toList <+: r.render.toList

/-- The name of a source cannot make its first line one of a failed parse. -/
theorem not_tellsFailure_startRecord (source : String) (options : ParseOptions) :
    ¬(startRecord source options).TellsFailure := by
  simp [LogRecord.TellsFailure, LogRecord.render, startRecord, toString]

theorem tellsFailure_outcomeRecord_iff (options : ParseOptions) (r : Except ParseError Block) :
    (outcomeRecord options r).TellsFailure ↔ ∃ e, r = .error e := by
  cases r with
  | ok b => simp [LogRecord.TellsFailure, LogRecord.render, outcomeRecord, toString]
  | error e => simp [LogRecord.TellsFailure, LogRecord.render, outcomeRecord, toString]

/-- A logged parse gives what it gives without a log, of which it fills two lines. It has failed
exactly if one of them says so. -/
theorem parseLogged_correct (source : String) (options : ParseOptions) :
    (parseLogged source options).1 = parse source options ∧
      (parseLogged source options).2.length = 2 ∧
      (∀ r ∈ (parseLogged source options).2, r.level = .debug) ∧
      ((∃ r ∈ (parseLogged source options).2, r.TellsFailure) ↔
        ∃ e, parse source options = .error e) := by
  refine ⟨rfl, rfl, ?_, ?_⟩
  · intro r hr
    obtain rfl | hr := List.mem_cons.1 hr
    · rfl
    · obtain rfl := List.mem_singleton.1 hr
      cases parse source options <;> rfl
  · rw [parseLogged, List.exists_mem_cons_iff]
    simp [not_tellsFailure_startRecord, tellsFailure_outcomeRecord_iff]

end LuaSource

-- SUMMARY: Reading, parsing and writing a source pass all checks, whatever the source is.
import LuaSource.Checked.Chunk
import LuaSource.Proofs.Checked.Grammar

/-!
# No check fails

A level is left as often as it is entered. So levels can be counted by the recursion on them, and
the checked parser comes to the tree or the fault that the parser comes to.
-/

namespace LuaSource.Checked

open LuaSource.Checked.Parse

variable {α : Type} {d maxDepth : Nat}

/-! ## Levels -/

/-- What is parsed one level further in, if there may be one level more. -/
theorem Parse.Agrees.entered {g : Parse α} {f : LuaSource.Parse α} (h : Agrees (d + 1) g f)
    (hd : d + 1 ≤ maxDepth) :
    Agrees d (do enter maxDepth; let a ← g; leave; return a) f := by
  intro w hw
  obtain ⟨heq, hcarries⟩ := h w hw
  refine ⟨fun name => ?_, hcarries⟩
  have heq := heq name
  have henter : enter maxDepth { window := w, chunkName := name, depth := d } =
      some (.ok ((), { window := w, chunkName := name, depth := d + 1 })) :=
    if_neg (Nat.not_lt.2 hd)
  rw [bind_of_some henter]
  cases hf : f w with
  | ok r =>
    rw [hf] at heq
    rw [bind_of_some heq]
    rfl
  | error e =>
    rw [hf] at heq
    exact bind_of_error heq _

/-- Beyond the last level there is nothing but the fault that says so. -/
theorem Parse.Agrees.tooManyLevels (g : Parse α) :
    Agrees d (do enter d; let a ← g; leave; return a) (Parsing.fail .tooManyLevels) := by
  refine fun w hw => ⟨fun name => ?_, nofun⟩
  have henter : enter d { window := w, chunkName := name, depth := d } =
      some (.error ⟨⟨.tooManyLevels w.current.text, w.current.span⟩, name⟩) := by
    rw [enter]
    dsimp only
    rw [if_pos (Nat.lt_succ_self d)]
    exact (Agrees.fail (d := d + 1) .tooManyLevels w hw).eq name
  exact bind_of_error henter _

/-- The levels that are entered and those that may still be are `maxDepth` at all times. -/
theorem Level.agrees_ofFuel (n : Nat) (h : d + n = maxDepth) :
    Level.Agrees d (ofFuel maxDepth (n + 1)) (LuaSource.Level.ofDepth n) := by
  induction n generalizing d with
  | zero =>
    obtain rfl : d = maxDepth := h
    exact ⟨fun _ => .tooManyLevels _, fun _ => .tooManyLevels _⟩
  | succ n ih =>
    have hd : d + 1 ≤ maxDepth := by omega
    have hinner := ih (d := d + 1) (by omega)
    exact ⟨fun terminators => (Grammar.block_agrees hinner terminators).entered hd,
      fun limit => (Grammar.operand_agrees hinner limit).entered hd⟩

/-! ## Sources -/

/-- A name that is carried through the parse comes to the same as one that the fault is given at the
end. -/
theorem Tokens.parse_eq {ts : LuaSource.Tokens} (h : ts.window.Carries) (chunkName : String)
    (maxDepth : Nat) :
    parse ts chunkName maxDepth =
      some ((ts.parse maxDepth).mapError fun fault => { fault with chunkName }) := by
  rw [LuaSource.Tokens.parse_eq, parse, Window.ofTokens, ← LuaSource.Tokens.window]
  cases ts.window.errorWithin? 2 with
  | some e => rfl
  | none =>
    have heq := (Grammar.chunk_agrees (Level.agrees_ofFuel (d := 0) maxDepth (Nat.zero_add _))
      ts.window h).eq chunkName
    have hrun : (Grammar.chunk (Level.ofFuel maxDepth (maxDepth + 1))).run
          { window := ts.window, chunkName } =
        some (outcome chunkName 0 (Grammar.chunk (LuaSource.Level.ofDepth maxDepth) ts.window)) :=
      heq
    dsimp only
    rw [hrun]
    cases Grammar.chunk (LuaSource.Level.ofDepth maxDepth) ts.window <;> rfl

theorem carries_ofSource (source : String) (skipShebang : Bool) :
    (LuaSource.Tokens.ofSource source skipShebang).window.Carries := by
  obtain ⟨htokens, hending⟩ :=
    (Place.yields_ofPlace (Place.ofSource source.toList skipShebang)).carriesText
  exact ⟨htokens, hending⟩

theorem parse_eq (source : String) (options : ParseOptions) :
    parse source options = some (LuaSource.parse source options) := by
  rw [parse, Tokens.ofSource_eq, Option.bind_eq_bind, Option.bind_some,
    Tokens.parse_eq (carries_ofSource _ _), LuaSource.parse]

/-! ## Layout -/

namespace Layout

theorem segments_eq (isMethod : Bool) (ns : List Name) (i : Nat) (k : List Piece) :
    segments isMethod (i + ns.length) ns (i + 1) k =
      LuaSource.Layout.morePath isMethod ns k := by
  induction ns generalizing i with
  | nil => rfl
  | cons n ns ih =>
    have hlast : (i + 1 == i + (ns.length + 1)) = ns.isEmpty := by
      cases ns <;> simp
    have hrest := ih (i + 1)
    rw [Nat.add_assoc, Nat.add_comm 1] at hrest
    rw [segments, if_pos (Nat.succ_pos i), List.length_cons, hlast, hrest]
    rfl

/-- A name with a segment at least can be written. -/
theorem functionName_eq {f : FunctionName} (h : f.path ≠ []) (k : List Piece) :
    functionName f k = some (LuaSource.Layout.functionName f k) := by
  obtain ⟨n, ns, hpath⟩ := List.exists_cons_of_ne_nil h
  have hrest := segments_eq f.isMethod ns 0 k
  rw [Nat.zero_add, Nat.zero_add] at hrest
  have hminus : minus? (n :: ns).length 1 = some ns.length := if_pos (Nat.le_add_left 1 ns.length)
  rw [functionName, LuaSource.Layout.functionName, hpath, hminus, Option.bind_eq_bind,
    Option.bind_some, segments, hrest]
  rfl

end Layout

/-! ## All checks -/

/-- Reading, parsing and writing come to the same with all checks as without. -/
theorem no_check_fails (source : String) (options : ParseOptions) :
    (∀ skipShebang n, (Cursor.ofSource source skipShebang).bind (Lexer.answer · n) =
      some ((LuaSource.Lexer.ofSource source skipShebang).answer n)) ∧
    tokenize source = some (LuaSource.tokenize source) ∧
    parse source options = some (LuaSource.parse source options) ∧
    ∀ b, LuaSource.parse source options = .ok b → ∀ name body span,
      Node.statement (.function name body span) ∈ Nodes.block b →
        ∀ k, Layout.functionName name k = some (LuaSource.Layout.functionName name k) := by
  refine ⟨fun skipShebang n => ?_, tokenize_eq source, parse_eq source options, ?_⟩
  · rw [Cursor.ofSource_eq, Option.bind_some]
    exact (Lexer.of_ofSource source skipShebang).answer n
  · intro b hb name body span hmem k
    have hsound := (Nodes.holds_block b).2 (parse_sound hb).2.1 _ hmem
    exact Layout.functionName_eq hsound.1 k

theorem no_check_fails_method :
    ∃ b name body span, LuaSource.parse "function a.b:c() end" = .ok b ∧
      Node.statement (.function name body span) ∈ Nodes.block b ∧
      Layout.functionName name [] = some (LuaSource.Layout.functionName name []) := by
  have hany : (LuaSource.parse "function a.b:c() end").toOption.any (fun b =>
      (Nodes.block b).any fun
        | .statement (.function ..) => true
        | _ => false) = true := by decide +kernel
  cases hparse : LuaSource.parse "function a.b:c() end" with
  | error e =>
    rw [hparse] at hany
    cases hany
  | ok b =>
    rw [hparse] at hany
    obtain ⟨n, hn, hfunction⟩ := List.any_eq_true.1 hany
    split at hfunction
    · exact ⟨b, _, _, _, rfl, hn, (no_check_fails _ {}).2.2.2 b hparse _ _ _ hn []⟩
    · cases hfunction

end LuaSource.Checked

-- SUMMARY: Behind statements and a semicolon, a block goes on as a block of its own.
import LuaSource.Proofs.Grammar.GiveStatement

/-!
# Behind a semicolon

A block is read statement by statement. What has been read so far is not looked at again, and a
semicolon ends whatever statement is before it. So what comes behind a semicolon is read as if
nothing had been there before.
-/

namespace LuaSource

open Parse Parsing

/-! ## Loops -/

namespace Parse

variable {α β : Type} {step : α → Parse (α ⊕ β)}

/-- If the steps from `f a` do the same as those from `a`, so do the repetitions. -/
theorem loop_map {f : α → α} {g : β → β} (h : ∀ a, step (f a) = Sum.map f g <$> step a) (a : α) :
    loop step (f a) = g <$> loop step a := by
  have halong : ∀ ts a, loopAlong step ts (f a) = g <$> loopAlong step ts a := by
    intro ts
    induction ts with
    | nil =>
      intro a
      rw [loopAlong, loopAlong, h, bind_map_left, map_bind]
      refine bind_congr fun r => ?_
      cases r <;> rfl
    | cons t ts ih =>
      intro a
      rw [loopAlong, loopAlong, h, bind_map_left, map_bind]
      refine bind_congr fun r => ?_
      cases r with
      | inl a' => exact ih a'
      | inr b => rfl
  funext w
  show loopAlong step w.ahead (f a) w = (g <$> loopAlong step w.ahead a) w
  rw [halong]

end Parse

/-! ## Statements -/

namespace Semicolon

open Give

variable {inner : Level} {depth : Nat} {w : Window} {terminators : List Symbol}

/-- The statements before are only kept. -/
theorem statementStep_append (ss ts : List Statement) :
    Grammar.statementStep inner terminators (ss ++ ts) =
      Sum.map (· ++ ts) (ts.reverse ++ ·) <$> Grammar.statementStep inner terminators ss := by
  unfold Grammar.statementStep
  rw [map_bind]
  refine bind_congr fun s => ?_
  split
  · simp
  · split <;> simp

theorem loop_statementStep (ts : List Statement) :
    loop (Grammar.statementStep inner terminators) ts =
      (ts.reverse ++ ·) <$> loop (Grammar.statementStep inner terminators) [] :=
  loop_map (fun ss => statementStep_append ss ts) []

section Statements

variable (h : inner.Complete depth) (hterminators : ∀ x ∈ terminators, x.endsBlock = true)

include h hterminators

theorem semicolons_pass {ts : List Statement} {M : Language Letter} (hw : w.Ready)
    (hl : w.letters ∈ Spelling.semicolons * M) :
    ∃ w', Passes (Grammar.statementStep inner terminators) ts w ts w' ∧ w'.Ready ∧
      w'.letters ∈ M := by
  obtain ⟨n, hpow⟩ := Spelling.exists_semicolons hl
  clear hl
  induction n generalizing w with
  | zero =>
    rw [pow_zero, one_mul] at hpow
    exact ⟨w, .refl, hw, hpow⟩
  | succ n ih =>
    rw [pow_succ', mul_assoc] at hpow
    obtain ⟨r, v, hr, hv, hlv, rfl⟩ := step_of_semicolon hterminators hw hpow
    obtain ⟨w', hpass, hw', hl'⟩ := ih hv hlv
    exact ⟨w', .trans (.once (Local.statementStep_local h.isLocal _) hw.proper hr) hpass, hw', hl'⟩

/-- Statements that others may follow are read up to a semicolon behind them. -/
theorem statements_pass {before : Option Statement} {ss ts : List Statement} {R : Language Letter}
    (hopen : ∀ s ∈ ss, s.isLast = false) (hss : Everywhere.statements grammatical ss)
    (hneed : Need.statements ss ≤ depth) (hR : Begins R (· = .semicolon)) (hw : w.Ready)
    (hl : w.letters ∈ Spelling.semicolons * (Spelling.statements before ss * R)) :
    ∃ ts' w', Passes (Grammar.statementStep inner terminators) ts w ts' w' ∧ w'.Ready ∧
      w'.letters ∈ R ∧
      ts'.reverse.map Shape.statement =
        ts.reverse.map Shape.statement ++ ss.map Shape.statement := by
  induction ss generalizing before ts w with
  | nil =>
    rw [Spelling.statements, one_mul] at hl
    obtain ⟨w', hpass, hw', hl'⟩ := semicolons_pass h hterminators hw hl
    exact ⟨ts, w', hpass, hw', hl', by simp⟩
  | cons s ss ih =>
    -- What has to separate the statement from the one before it is one semicolon more.
    have hl' : w.letters ∈ Spelling.semicolons * (Spelling.statement s * (Spelling.trail s *
        (Spelling.statements (some s) ss * R))) := by
      rw [Spelling.statements] at hl
      simp only [mul_assoc] at hl
      rw [← mul_assoc Spelling.semicolons] at hl
      exact mul_le_mul_left (Spelling.semicolons_mul_separation_le before s) _ hl
    have hs := hopen s List.mem_cons_self
    rw [Need.statements, Nat.max_le] at hneed
    have hbehind := @begins_behind s ss R hs (hR.mono fun x hx => hx ▸ .semicolon s)
    obtain ⟨v, hpass, hv, hlv⟩ := semicolons_pass h hterminators hw hl'
    obtain ⟨r, u, hr, hu, hlu, s', rfl, hs'⟩ :=
      step_of_statement h hterminators hs hv hlv hss.1 hneed.1 hbehind
    rw [Spelling.trail_of_open hs] at hlu
    obtain ⟨ts', w', hpass', hw', hl', hts'⟩ := @ih u (some s) (s' :: ts)
      (fun t ht => hopen t (List.mem_cons_of_mem s ht)) hss.2 hneed.2 hu hlu
    have hstep := Passes.once (Local.statementStep_local h.isLocal terminators) hv.proper hr
    refine ⟨ts', w', (hpass.trans hstep).trans hpass', hw', hl', ?_⟩
    rw [hts']
    simp [hs']

/-- The semicolon itself is a step that changes nothing. -/
theorem loop_semicolon (ts : List Statement) (hw : w.Proper) (hs : w.current.symbol = .semicolon) :
    loop (Grammar.statementStep inner terminators) ts w =
      w.consume.bind fun r => loop (Grammar.statementStep inner terminators) ts r.2 := by
  have hstep : Grammar.statementStep inner terminators ts w =
      (do let _ ← consume; return .inl ts : Parse (List Statement ⊕ List Statement)) w := by
    rw [Grammar.statementStep, bind_apply]
    show (if w.current.symbol = .eof ∨ w.current.symbol ∈ terminators then _ else _ :
      Parse (List Statement ⊕ List Statement)) w = _
    rw [hs, if_neg (not_ends hterminators rfl)]
  rw [loop_eq (Local.statementStep_local h.isLocal _) hw, bind_apply, hstep, bind_apply]
  show (w.consume.bind _).bind _ = w.consume.bind _
  cases w.consume <;> rfl

end Statements

/-! ## Chunks -/

theorem chunk_succ (w : Window) :
    Grammar.chunk (Level.ofDepth (depth + 1)) w =
      (loop (Grammar.statementStep (Level.ofDepth depth) []) [] w).bind fun r =>
        if r.2.current.symbol = .eof then
          .ok (⟨r.1, Grammar.blockSpan w.current.span.start r.1⟩, r.2)
        else .error ⟨.expected Symbol.eof.spelling r.2.current.text, r.2.current.span⟩ := by
  have hblock : Grammar.chunk (Level.ofDepth (depth + 1)) w =
      ((loop (Grammar.statementStep (Level.ofDepth depth) []) [] w).bind fun r =>
        .ok (⟨r.1, Grammar.blockSpan w.current.span.start r.1⟩, r.2)).bind fun r =>
          (if r.2.current.symbol = .eof then pure r.1
            else fail (.expected Symbol.eof.spelling) : Parse Block) r.2 := rfl
  rw [hblock]
  cases loop (Grammar.statementStep (Level.ofDepth depth) []) [] w with
  | error e => rfl
  | ok r =>
    dsimp only [Except.bind]
    split <;> rfl

variable {ts us : List Token} {semicolon : Token} {b : Block}

/-- A window that breaks off behind a semicolon agrees up to it with the one that goes on. -/
theorem agree_upTo {ending : Except (Located LexError) Token} (hw : w.Proper)
    (hahead : w.ahead = ts ++ semicolon :: us) :
    (⟨ts ++ [semicolon], ending, w.before⟩ : Window).Agree ts.length w := by
  refine ⟨rfl, fun j hj => ?_, hw⟩
  have hlt : j < (ts ++ [semicolon]).length := by
    rw [List.length_append]
    exact Nat.lt_succ_of_le hj
  have hget : w.ahead[j]? = (ts ++ [semicolon])[j]? := by
    rw [hahead, ← List.singleton_append, ← List.append_assoc]
    exact List.getElem?_append_left hlt
  rw [Window.token, Window.token, hget, List.getElem?_eq_getElem hlt]
  rfl

/-- The tokens of a block and a semicolon are taken, and the statements of the block stand before
what is read behind them. -/
theorem loop_behind (hw : w.Proper) (hahead : w.ahead = ts ++ semicolon :: us)
    (hs : semicolon.symbol = .semicolon) (hl : lettersFrom w.before ts ∈ Spelling.block b)
    (hopen : ∀ s ∈ b.statements, s.isLast = false) (hb : Everywhere.block grammatical b)
    (hneed : Need.block b ≤ depth + 1) :
    ∃ ss : List Statement, ss.map Shape.statement = b.statements.map Shape.statement ∧
      loop (Grammar.statementStep (Level.ofDepth depth) []) [] w =
        (w.advance (ts.length + 1)).bind ((ss ++ ·) <$> loop
          (Grammar.statementStep (Level.ofDepth depth) []) []) := by
  obtain ⟨ss, span⟩ := b
  -- The window on these tokens alone agrees with the whole one up to the semicolon.
  let w₀ : Window := ⟨ts ++ [semicolon], .ok (Token.eof .start), w.before⟩
  have hready : w₀.Ready := by
    refine ⟨⟨fun t ht => hw.ahead t ?_, ?_⟩, _, rfl⟩
    · rw [hahead]
      simp only [w₀, List.mem_append, List.mem_singleton] at ht
      simpa using ht.imp_right .inl
    · rintro t ⟨⟩
      rfl
  have hagree : w₀.Agree ts.length w := agree_upTo hw hahead
  have hterminators : ∀ x ∈ ([] : List Symbol), x.endsBlock = true := nofun
  have hletters : w₀.letters ∈ Spelling.semicolons * (Spelling.statements none ss *
      Spelling.symbol .semicolon) := by
    rw [← mul_assoc]
    rw [Spelling.block] at hl
    show lettersFrom w.before (ts ++ [semicolon]) ∈ _
    rw [lettersFrom_append]
    exact Language.append_mem_mul hl ⟨_, hs, rfl⟩
  have hbegins : Begins (Spelling.symbol .semicolon) (· = .semicolon) := by
    rw [← mul_one (Spelling.symbol .semicolon)]
    exact .symbol rfl
  have hneed' : Need.statements ss ≤ depth := by
    rw [Need.block] at hneed
    omega
  obtain ⟨ts', w', ⟨k, hadvance, hloop⟩, hw', hl', hts'⟩ :=
    @statements_pass _ _ _ _ (complete_ofDepth depth) hterminators none ss [] _ hopen hb.2 hneed'
      hbegins hready hletters
  have hk : k = ts.length := by
    have hlength := congrArg List.length (Window.ahead_of_advance hadvance)
    obtain ⟨c, -, hc⟩ := hl'
    have hone := congrArg List.length hc
    rw [Window.length_letters, List.length_singleton] at hone
    rw [List.length_drop, hone] at hlength
    simp only [w₀, List.length_append, List.length_singleton] at hlength
    omega
  subst hk
  refine ⟨ts'.reverse, by simpa using hts', ?_⟩
  rw [hloop w hagree, Window.advance_add]
  cases hadv : w.advance ts.length with
  | error e => rfl
  | ok v =>
    have hcurrent : v.current = semicolon := by
      rw [← Window.token_zero, Window.token_of_advance hadv, Window.token, hahead]
      simp
    have hv := Window.proper_of_advance hw hadv
    show (loop _ ts' : Parse _) v = (v.consume.bind fun r => .ok r.2).bind _
    rw [loop_semicolon (complete_ofDepth depth) hterminators ts' hv (hcurrent ▸ hs)]
    cases v.consume with
    | error e => rfl
    | ok r => exact congrFun (loop_statementStep ts') r.2

/-- A chunk goes on behind a semicolon as a chunk of its own. -/
theorem chunk_behind (hw : w.Proper) (hahead : w.ahead = ts ++ semicolon :: us)
    (hs : semicolon.symbol = .semicolon) (hl : lettersFrom w.before ts ∈ Spelling.block b)
    (hopen : ∀ s ∈ b.statements, s.isLast = false) (hb : Everywhere.block grammatical b)
    (hneed : Need.block b ≤ depth) :
    ∃ ss : List Statement, ss.map Shape.statement = b.statements.map Shape.statement ∧
      Grammar.chunk (Level.ofDepth depth) w = (w.advance (ts.length + 1)).bind fun v =>
        (Grammar.chunk (Level.ofDepth depth) v).map fun r =>
          (⟨ss ++ r.1.statements,
            Grammar.blockSpan w.current.span.start (ss ++ r.1.statements)⟩, r.2) := by
  obtain _ | depth := depth
  · obtain ⟨ss, span⟩ := b
    rw [Need.block] at hneed
    omega
  · obtain ⟨ss, hss, hloop⟩ := loop_behind hw hahead hs hl hopen hb hneed
    refine ⟨ss, hss, ?_⟩
    rw [chunk_succ, hloop]
    cases w.advance (ts.length + 1) with
    | error e => rfl
    | ok v =>
      have hmap : ((ss ++ ·) <$> loop (Grammar.statementStep (Level.ofDepth depth) []) [] :
          Parse (List Statement)) v =
            (loop (Grammar.statementStep (Level.ofDepth depth) []) [] v).map
              fun r => (ss ++ r.1, r.2) := by
        rw [map_eq_pure_bind, bind_apply]
        cases loop (Grammar.statementStep (Level.ofDepth depth) []) [] v <;> rfl
      dsimp only [Except.bind]
      rw [hmap, chunk_succ]
      cases loop (Grammar.statementStep (Level.ofDepth depth) []) [] v with
      | error e => rfl
      | ok r =>
        dsimp only [Except.map, Except.bind]
        split <;> rfl

end Semicolon

end LuaSource

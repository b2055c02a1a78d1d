-- SUMMARY: Along the word of a conditional, its clauses come in order, each from its keyword on.
import LuaSource.Proofs.Grammar.PlacedSpans

/-!
# Clauses along a word

No visitor comes to a clause, only to its condition and to its block. It has a span all the same,
which starts with the keyword of the clause. The span ends with the block if there are statements in
it. Else it ends with `then`, and the block stands where the next token starts: in most sources that
is behind the clause.
-/

namespace LuaSource

/-- The other span is inside of this one. -/
def Span.Covers (outer inner : Span) : Prop :=
  outer.start ≤ inner.start ∧ inner.stop ≤ outer.stop

/-! ## Clauses among tokens -/

/-- How a clause stands among the tokens of a source. -/
structure Clause.Stands (ts : List Token) (keyword : Symbol) (c : Clause) : Prop where
  starts : ∃ t ∈ ts, t.symbol = keyword ∧ t.span.start = c.span.start
  condition : c.span.Covers c.condition.span
  /-- The block is inside of the clause, unless it is empty and something stands before it. -/
  body : c.span.Covers c.body.span ↔ (c.body.statements = [] → c.body.span.start = c.span.stop)
  stops : c.body.statements ≠ [] → c.body.span.stop = c.span.stop
  /-- An empty block stands where the token behind `then` starts. -/
  empty : c.body.statements = [] → ∃ t u, [t, u] <:+: ts ∧ t.symbol = .kwThen ∧
    t.span.stop = c.span.stop ∧ c.body.span = .empty u.span.start

/-- A clause ends before another one starts, and so does its block. -/
def Clause.Before (c d : Clause) : Prop :=
  c.span.stop ≤ d.span.start ∧ c.body.span.stop ≤ d.span.start

/-- Clauses stand between two positions with their blocks, one behind the other. -/
structure Clause.Row (a : Position) (cs : List Clause) (b : Position) : Prop where
  start : ∀ c ∈ cs, a ≤ c.span.start ∧ c.span.start ≤ c.body.span.start
  stop : ∀ c ∈ cs, c.span.stop ≤ b ∧ c.body.span.stop ≤ b
  inOrder : cs.Pairwise Clause.Before

/-- How the clauses and the last block of a conditional stand among the tokens of a source. -/
structure Clause.StandIn (ts : List Token) (cs : List Clause) (otherwise : Option Block)
    (span : Span) : Prop where
  keywords : ∃ c ds, cs = c :: ds ∧ c.Stands ts .kwIf ∧ ∀ d ∈ ds, d.Stands ts .kwElseif
  inOrder : cs.Pairwise Clause.Before
  inside : ∀ c ∈ cs, span.Covers c.span ∧ span.Covers c.body.span
  otherwise : ∀ b ∈ otherwise, span.Covers b.span ∧
    ∀ c ∈ cs, c.span.stop ≤ b.span.start ∧ c.body.span.stop ≤ b.span.start

namespace Clause.Row

variable {a b r : Position} {c : Clause} {cs : List Clause}

theorem nil : Row a [] b := ⟨nofun, nofun, .nil⟩

theorem single (hstart : a ≤ c.span.start ∧ c.span.start ≤ c.body.span.start)
    (hstop : c.span.stop ≤ b ∧ c.body.span.stop ≤ b) : Row a [c] b :=
  ⟨List.forall_mem_singleton.2 hstart, List.forall_mem_singleton.2 hstop,
    List.pairwise_singleton _ _⟩

theorem append {ds : List Clause} (h : Row a cs r) (h' : Row r ds b) (har : a ≤ r) (hrb : r ≤ b) :
    Row a (cs ++ ds) b where
  start := List.forall_mem_append.2 ⟨h.start, fun d hd => ⟨har.trans (h'.start d hd).1,
    (h'.start d hd).2⟩⟩
  stop := List.forall_mem_append.2 ⟨fun c hc => ⟨(h.stop c hc).1.trans hrb,
    (h.stop c hc).2.trans hrb⟩, h'.stop⟩
  inOrder := List.pairwise_append.2 ⟨h.inOrder, h'.inOrder, fun c hc d hd =>
    ⟨(h.stop c hc).1.trans (h'.start d hd).1, (h.stop c hc).2.trans (h'.start d hd).1⟩⟩

end Clause.Row

/-! ## Words among tokens -/

/-- The word stands among the marks of the tokens, and there is a mark behind it. -/
def Within (ts : List Token) (u : List Mark) : Prop :=
  ∃ p last x d y, marksFrom p last ts = x ++ (u ++ d :: y)

theorem next_of_marksFrom_eq {p last : Position} {ts : List Token} {x y : List Mark} {c d : Mark}
    (h : marksFrom p last ts = x ++ c :: d :: y) : c.next = d.span.start := by
  induction ts generalizing p x with
  | nil => simp [marksFrom] at h
  | cons t ts ih =>
    rw [marksFrom] at h
    cases x with
    | cons e x => exact ih (List.cons.inj h).2
    | nil =>
      obtain ⟨rfl, hrest⟩ := List.cons.inj h
      cases ts with
      | nil => cases hrest
      | cons t' ts =>
        obtain ⟨rfl, -⟩ := List.cons.inj hrest
        rfl

namespace Within

variable {ts : List Token} {u v : List Mark} {c : Mark}

theorem left (h : Within ts (u ++ v)) : Within ts u := by
  obtain ⟨p, last, x, d, y, h⟩ := h
  cases v with
  | nil => exact ⟨p, last, x, d, y, by rw [h, List.append_nil]⟩
  | cons e v => exact ⟨p, last, x, e, v ++ d :: y, by rw [h]; simp⟩

theorem right (h : Within ts (u ++ v)) : Within ts v := by
  obtain ⟨p, last, x, d, y, h⟩ := h
  exact ⟨p, last, x ++ u, d, y, by rw [h]; simp⟩

/-- The mark of a word tells where the token behind it starts. -/
theorem exists_next (h : Within ts (u ++ c :: v)) :
    ∃ t, [c.toToken, t] <:+: ts ∧ c.next = t.span.start := by
  obtain ⟨p, last, x, d, y, h⟩ := h.right.left (u := [c])
  refine ⟨d.toToken, ⟨x.map Mark.toToken, y.map Mark.toToken, ?_⟩, next_of_marksFrom_eq h⟩
  rw [← map_toToken_marksFrom p last ts, h]
  simp

theorem mem (h : Within ts (c :: v)) : c.toToken ∈ ts := by
  obtain ⟨p, last, x, d, y, h⟩ := h
  rw [← map_toToken_marksFrom p last ts, h]
  simp

end Within

namespace Placing

variable {source : List Char} {ts : List Token} {a b : Position} {u : List Mark} {s : Symbol}

/-! ## Words of clauses -/

/-- An empty block is where it is looked for. -/
theorem span_eq_of_mem_block {p : Position} {body : Block} (hu : u ∈ block p body)
    (hempty : body.statements = []) : body.span = .empty p := by
  obtain ⟨ss, span⟩ := body
  obtain rfl : ss = [] := hempty
  rw [block] at hu
  exact hu.1

theorem stands_clause {c : Clause} (hu : u ∈ behind s fun keyword => clause keyword.span c)
    (hwithin : Within ts u) (hq : Marches source a u b) : c.Stands ts s ∧ Clause.Row a [c] b := by
  obtain ⟨e, body, span⟩ := c
  obtain ⟨keyword, v, hs, hv, rfl⟩ := hu
  replace hv : v ∈ clause keyword.span ⟨e, body, span⟩ := hv
  rw [clause] at hv
  obtain ⟨x, hx, _, ⟨t, w, ht, ⟨rfl, hw⟩, rfl⟩, rfl⟩ := Language.mem_mul.1 hv
  obtain ⟨hstart, hkeyword, -, hnext, hq⟩ := hq
  obtain ⟨r, hr, hthen, hstop, -, hbehind, hq⟩ := marches_append.1 hq
  obtain ⟨-, hbefore, hcondition, hafter⟩ := lays_expression e _ x hx r hr
  obtain ⟨-, hblock, hbody, hb⟩ := lays_block t.next body w hw b hq
  have hfirst : keyword.span.start ≤ e.span.start := (hkeyword.trans (hnext.trans hbefore)).le
  have hlast : e.span.stop ≤ t.span.stop := (hafter.trans (hthen.trans hstop)).le
  have hopen : t.span.stop ≤ body.span.start := (hbehind.trans hblock).le
  have hwhole : keyword.span.start ≤ body.span.start :=
    hfirst.trans (hcondition.le.trans (hlast.trans hopen))
  by_cases hempty : body.statements = []
  · obtain ⟨t', hinfix, hnext⟩ := Within.exists_next (u := keyword :: x) (v := w) hwithin
    have hspan := span_eq_of_mem_block hw hempty
    rw [if_pos (List.isEmpty_iff.2 hempty)]
    refine ⟨⟨⟨_, hwithin.mem, hs, rfl⟩, ⟨hfirst, hlast⟩, ⟨fun h _ => ?_, fun h => ?_⟩,
      fun h => absurd hempty h, fun _ => ⟨_, t', hinfix, ht, rfl, hnext ▸ hspan⟩⟩,
      .single ⟨hstart.le, hwhole⟩ ⟨hopen.trans (hbody.le.trans hb.le), hb.le⟩⟩
    · exact Position.eq_of_le_of_le (hbody.le.trans h.2) hopen
    · have hstop : body.span.stop = body.span.start := by
        rw [hspan]
        rfl
      exact ⟨hwhole, (hstop.trans (h hempty)).le⟩
  · rw [if_neg fun h => hempty (List.isEmpty_iff.1 h)]
    have hcovers : Span.Covers (Span.between keyword.span body.span) body.span :=
      ⟨hwhole, le_refl body.span.stop⟩
    exact ⟨⟨⟨_, hwithin.mem, hs, rfl⟩, ⟨hfirst, hlast.trans (hopen.trans hbody.le)⟩,
      ⟨fun _ h => absurd h hempty, fun _ => hcovers⟩, fun _ => rfl, fun h => absurd h hempty⟩,
      .single ⟨hstart.le, hwhole⟩ ⟨hb.le, hb.le⟩⟩

theorem stands_moreClauses {cs : List Clause} (hu : u ∈ moreClauses cs) (hwithin : Within ts u)
    (hq : Marches source a u b) :
    (∀ c ∈ cs, c.Stands ts .kwElseif) ∧ Clause.Row a cs b := by
  induction cs generalizing u a with
  | nil => exact ⟨nofun, .nil⟩
  | cons c cs ih =>
    rw [moreClauses] at hu
    obtain ⟨x, hx, y, hy, rfl⟩ := Language.mem_mul.1 hu
    obtain ⟨r, hxr, hyq⟩ := marches_append.1 hq
    obtain ⟨hc, hrow⟩ := stands_clause hx hwithin.left hxr
    obtain ⟨hcs, hrows⟩ := ih hy hwithin.right hyq
    exact ⟨List.forall_mem_cons.2 ⟨hc, hcs⟩, hrow.append hrows hxr.leads.le hyq.leads.le⟩

theorem stands_clauses {cs : List Clause} (hu : u ∈ clauses cs) (hwithin : Within ts u)
    (hq : Marches source a u b) :
    (∃ c ds, cs = c :: ds ∧ c.Stands ts .kwIf ∧ ∀ d ∈ ds, d.Stands ts .kwElseif) ∧
      Clause.Row a cs b := by
  cases cs with
  | nil =>
    rw [clauses] at hu
    exact absurd hu (Language.notMem_zero u)
  | cons c cs =>
    rw [clauses] at hu
    obtain ⟨x, hx, y, hy, rfl⟩ := Language.mem_mul.1 hu
    obtain ⟨r, hxr, hyq⟩ := marches_append.1 hq
    obtain ⟨hc, hrow⟩ := stands_clause hx hwithin.left hxr
    obtain ⟨hcs, hrows⟩ := stands_moreClauses hy hwithin.right hyq
    exact ⟨⟨c, cs, rfl, hc, hcs⟩, hrow.append hrows hxr.leads.le hyq.leads.le⟩

/-! ## Words of conditionals -/

/-- A word that takes up a span ends within it, and so does all that comes before its last mark. -/
theorem le_stop_of_fills {v w : List Mark} {r : Position} {span : Span} (hw : w ≠ [])
    (hfills : Fills (v ++ w) span) (hq : Marches source r w b) : r ≤ span.stop := by
  obtain ⟨-, d, hd, hstop⟩ := hfills
  rw [List.getLast?_append_of_ne_nil v hw] at hd
  exact hstop ▸ (hq.last hd).1.le

/-- Behind the clauses of a conditional comes its last block, if there is one, and then `end`. -/
theorem standIn_conditional {cs : List Clause} {o : Option Block} {span : Span}
    {x y : List Mark} {p last : Position} (hu : u ∈ statement (.conditional cs o span))
    (hts : marksFrom p last ts = x ++ (u ++ y)) (hq : Marches source a u b) :
    Clause.StandIn ts cs o span := by
  have hfills : Fills u span := fills_statement _ u hu
  obtain ⟨-, hq⟩ := hq.from_start hfills
  rw [statement] at hu
  obtain ⟨_, hfront, w, hw, rfl⟩ := Language.mem_mul.1 hu.1
  obtain ⟨v, hv, v', hv', rfl⟩ := Language.mem_mul.1 hfront
  obtain ⟨r', hq, hwq⟩ := marches_append.1 hq
  obtain ⟨r, hvq, hvq'⟩ := marches_append.1 hq
  have hne : w ≠ [] := fun hnil => nil_notMem_symbol .kwEnd (hnil ▸ hw)
  have hstop : r' ≤ span.stop := le_stop_of_fills hne hfills hwq
  have hle : r ≤ r' := hvq'.leads.le
  obtain ⟨d, w, rfl⟩ := List.exists_cons_of_ne_nil hne
  have hwithin : Within ts (v ++ v') := ⟨p, last, x, d, w ++ y, by rw [hts]; simp⟩
  obtain ⟨hkeywords, hrow⟩ := stands_clauses hv hwithin.left hvq
  refine ⟨hkeywords, hrow.inOrder, fun c hc => ?_, fun body hbody => ?_⟩
  · obtain ⟨hstart, hbody⟩ := hrow.start c hc
    obtain ⟨hend, hbodyEnd⟩ := hrow.stop c hc
    exact ⟨⟨hstart, hend.trans (hle.trans hstop)⟩,
      hstart.trans hbody, hbodyEnd.trans (hle.trans hstop)⟩
  · obtain rfl := Option.mem_def.1 hbody
    obtain ⟨-, hstart, -, hend⟩ := lays_otherwise (some body) r v' hv' r' hvq'
    exact ⟨⟨hvq.leads.le.trans hstart.le, hend.le.trans hstop⟩, fun c hc =>
      ⟨(hrow.stop c hc).1.trans hstart.le, (hrow.stop c hc).2.trans hstart.le⟩⟩

end Placing

end LuaSource

-- SUMMARY: What the actions of a scanner do to its cursor, and rules for scanners that repeat them.
import LuaSource.Proofs.Lexer.Stream
import LuaSource.Scanner

/-!
# Loops of scanners

A scanner in a sequence is computed from what its parts do. A loop is followed from step to step:
an invariant holds of the state and the cursor, and every way out of the loop has the property that
its result is to have.
-/

namespace LuaSource

/-! ## Where a text can be cut -/

/-- The two texts do not cut a `\r\n` in two. -/
def Breaks (cs ds : List Char) : Prop := cs.getLast? = some '\r' → ds.head? ≠ some '\n'

theorem Breaks.of_head {cs ds : List Char} (h : ds.head? ≠ some '\n') : Breaks cs ds := fun _ => h

theorem Breaks.single {c : Char} (h : isNewline c = false) (ds : List Char) : Breaks [c] ds := by
  intro hc
  obtain rfl : c = '\r' := Option.some.inj hc
  exact absurd h (by decide)

theorem Breaks.of_all {cs : List Char} (h : ∀ c ∈ cs, isNewline c = false) (ds : List Char) :
    Breaks cs ds := fun hlast => absurd (h '\r' (List.mem_of_getLast? hlast)) (by decide)

theorem Breaks.append {cs ds es : List Char} (h : Breaks ds es) (hne : ds ≠ []) :
    Breaks (cs ++ ds) es := by
  intro hlast
  rw [List.getLast?_append_of_ne_nil cs hne] at hlast
  exact h hlast

theorem Position.next_of_ne {c : Char} (h : c ≠ '\r') (p : Position) (cs ds : List Char) :
    p.next c cs = p.next c ds := by
  simp [next, h]

/-- Two texts in a row take a position on as one does. -/
theorem Position.after_append_of_breaks {cs ds : List Char} (h : Breaks cs ds) (p : Position) :
    p.after (cs ++ ds) = (p.after cs).after ds := by
  induction cs generalizing p with
  | nil => rfl
  | cons c cs ih =>
    cases cs with
    | nil =>
      rw [List.singleton_append, after_cons, after_cons, after_nil]
      by_cases hc : c = '\r'
      · subst hc
        simp [next, h rfl]
      · rw [next_of_ne hc p ds []]
    | cons d cs =>
      rw [List.cons_append, after_cons, after_cons, ih h]
      rfl

/-- What stands on one line takes a position on character by character. -/
theorem Position.after_of_no_newline {c : Char} (h : isNewline c = false) (p : Position)
    (cs : List Char) : p.after (c :: cs) = (p.after [c]).after cs :=
  after_append_of_breaks (.single h cs) p

theorem Breaks.nil (ds : List Char) : Breaks [] ds := nofun

theorem Breaks.left {cs ds es : List Char} (h : Breaks cs (ds ++ es)) : Breaks cs ds := by
  intro hlast hhead
  refine h hlast ?_
  rw [List.head?_append, hhead]
  rfl

theorem Breaks.take {cs ds : List Char} (h : Breaks cs ds) (n : Nat) : Breaks cs (ds.take n) := by
  rw [← List.take_append_drop n ds] at h
  exact h.left

/-- Skipping passes the characters before a cut, and then those behind it. -/
theorem Place.skip_append_add {word rest : List Char} (h : Breaks word rest) (p : Position)
    (n : Nat) :
    Place.skip ⟨word ++ rest, p⟩ (word.length + n) = Place.skip ⟨rest, p.after word⟩ n := by
  rw [skip, skip, List.drop_length_add_append, List.take_length_add_append,
    Position.after_append_of_breaks (h.take n)]

/-- The newline at the head of a text. -/
theorem exists_newline {c : Char} (h : isNewline c = true) (cs : List Char) :
    ∃ newline rest, c :: cs = newline ++ rest ∧ newline.length = newlineSize (c :: cs) ∧
      Breaks newline rest ∧ (newline = ['\n'] ∨ newline = ['\r'] ∨ newline = ['\r', '\n']) := by
  have hc : c = '\n' ∨ c = '\r' := by simpa [isNewline] using h
  rcases hc with rfl | rfl
  · exact ⟨['\n'], cs, rfl, rfl, nofun, .inl rfl⟩
  · by_cases hcs : cs.head? = some '\n'
    · obtain ⟨rest, rfl⟩ := List.head?_eq_some_iff.1 hcs
      exact ⟨['\r', '\n'], rest, rfl, rfl, nofun, .inr (.inr rfl)⟩
    · exact ⟨['\r'], cs, rfl, by simp [newlineSize, hcs], fun _ => hcs, .inr (.inl rfl)⟩

/-- Behind a newline no more is left than behind its first character. -/
theorem length_behind_newline {c : Char} {cs newline rest : List Char}
    (h : c :: cs = newline ++ rest) (hne : newline ≠ []) : rest.length ≤ cs.length := by
  obtain ⟨d, newline, rfl⟩ := List.exists_cons_of_ne_nil hne
  rw [List.cons_append] at h
  rw [(List.cons.inj h).2, List.length_append]
  exact Nat.le_add_left ..

namespace Scanner

open Scanning

variable {α β : Type} {source cs ds : List Char} {p : Position} {b : String} {ch : Char}
  {c c' : Cursor} {a : α} {e : Located LexError}

/-! ## Sequences -/

theorem bind_ok {m : Scanner α} (h : m c = .ok a c') (f : α → Scanner β) :
    (m >>= f) c = f a c' := by
  show EStateM.bind m f c = f a c'
  rw [EStateM.bind, h]

theorem bind_error {m : Scanner α} (h : m c = .error e c') (f : α → Scanner β) :
    (m >>= f) c = .error e c' := by
  show EStateM.bind m f c = .error e c'
  rw [EStateM.bind, h]

/-! ## Actions -/

theorem save_eq (ch : Char) (source : List Char) (q : Place) (b : String) :
    (save ch : Scanner Unit) ⟨source, q, b⟩ = .ok () ⟨source, q, b.push ch⟩ := rfl

theorem takeBuffer_eq (source : List Char) (q : Place) (b : String) :
    (takeBuffer : Scanner String) ⟨source, q, b⟩ = .ok b ⟨source, q, ""⟩ := rfl

theorem advance_eq (c : Cursor) : (advance : Scanner Unit) c = .ok () c.advance.2 := rfl

theorem advance_char (h : isNewline ch = false) :
    (advance : Scanner Unit) ⟨source, ⟨ch :: cs, p⟩, b⟩ =
      .ok () ⟨source, ⟨cs, p.after [ch]⟩, b⟩ := by
  rw [advance_eq, Cursor.advance]
  dsimp only
  rw [h, if_neg Bool.false_ne_true]
  rfl

theorem advance_newline {newline : List Char} (h : isNewline ch = true)
    (hcs : ch :: cs = newline ++ ds) (hsize : newline.length = newlineSize (ch :: cs)) :
    (advance : Scanner Unit) ⟨source, ⟨ch :: cs, p⟩, b⟩ =
      .ok () ⟨source, ⟨ds, p.after newline⟩, b⟩ := by
  rw [advance_eq, Cursor.advance]
  dsimp only
  rw [if_pos h, ← hsize, hcs, Place.skip_append]

theorem saveAndAdvance_eq (c : Cursor) :
    (saveAndAdvance : Scanner Unit) c = .ok () c.saveAndAdvance := rfl

theorem saveAndAdvance_char (h : isNewline ch = false) :
    (saveAndAdvance : Scanner Unit) ⟨source, ⟨ch :: cs, p⟩, b⟩ =
      .ok () ⟨source, ⟨cs, p.after [ch]⟩, b.push ch⟩ := by
  rw [saveAndAdvance_eq, Cursor.saveAndAdvance, Cursor.advance]
  dsimp only
  rw [h, if_neg Bool.false_ne_true]
  rfl

theorem saveAndAdvance_newline {newline : List Char} (h : isNewline ch = true)
    (hcs : ch :: cs = newline ++ ds) (hsize : newline.length = newlineSize (ch :: cs)) :
    (saveAndAdvance : Scanner Unit) ⟨source, ⟨ch :: cs, p⟩, b⟩ =
      .ok () ⟨source, ⟨ds, p.after newline⟩, b.push '\n'⟩ := by
  rw [saveAndAdvance_eq, Cursor.saveAndAdvance, Cursor.advance]
  dsimp only
  rw [if_pos h, ← hsize, hcs, Place.skip_append]
  rfl

theorem eat_eq (ch : Char) (c : Cursor) :
    (eat ch : Scanner Bool) c = .ok (c.eat ch).1 (c.eat ch).2 := rfl

theorem eat_same (h : isNewline ch = false) :
    (eat ch : Scanner Bool) ⟨source, ⟨ch :: cs, p⟩, b⟩ =
      .ok true ⟨source, ⟨cs, p.after [ch]⟩, b⟩ := by
  have hadvance := @advance_char source cs p b ch h
  rw [advance_eq] at hadvance
  injection hadvance with _ hcursor
  have hpeek : (Cursor.mk source ⟨ch :: cs, p⟩ b).peek = some ch := rfl
  rw [eat_eq, Cursor.eat, if_pos hpeek, hcursor]

theorem eat_other (h : cs.head? ≠ some ch) :
    (eat ch : Scanner Bool) ⟨source, ⟨cs, p⟩, b⟩ = .ok false ⟨source, ⟨cs, p⟩, b⟩ := by
  have hpeek : (Cursor.mk source ⟨cs, p⟩ b).peek ≠ some ch := h
  rw [eat_eq, Cursor.eat, if_neg hpeek]

theorem peek_eq (source cs : List Char) (p : Position) (b : String) :
    (peek : Scanner (Option Char)) ⟨source, ⟨cs, p⟩, b⟩ =
      .ok cs.head? ⟨source, ⟨cs, p⟩, b⟩ := rfl

theorem peek_of {o : Option Char} (h : c.place.rest.head? = o) :
    (peek : Scanner (Option Char)) c = .ok o c := by
  subst h
  rfl

theorem mark_eq (source : List Char) (q : Place) (b : String) :
    (mark : Scanner Place) ⟨source, q, b⟩ = .ok q ⟨source, q, b⟩ := rfl

theorem restore_eq (source : List Char) (q r : Place) (b : String) :
    (restore r : Scanner Unit) ⟨source, q, b⟩ = .ok () ⟨source, r, b⟩ := rfl

theorem sliceFrom_eq (source word rest : List Char) (p q : Position) (b : String) :
    (sliceFrom ⟨word ++ rest, p⟩ : Scanner String) ⟨source, ⟨rest, q⟩, b⟩ =
      .ok (String.ofList word) ⟨source, ⟨rest, q⟩, b⟩ := by
  show EStateM.Result.ok (String.ofList (Cursor.sliceFrom _ _)) _ = _
  rw [Cursor.sliceFrom, Place.textUpTo, List.length_append, Nat.add_sub_cancel,
    List.take_left]

theorem byte_eq (n : Nat) (c : Cursor) : (byte n : Scanner Nat) c = .ok n c := rfl

/-! ## Loops -/

/-- A step goes on in a state for which `go` holds, or it ends the loop with a result for which
`post` holds. -/
def Goes (go : α → Cursor → Prop) (post : EStateM.Result (Located LexError) Cursor β → Prop) :
    EStateM.Result (Located LexError) Cursor (α ⊕ β) → Prop
  | .ok (.inl a) c => go a c
  | .ok (.inr b) c => post (.ok b c)
  | .error e c => post (.error e c)

/-- A step that ends the loop with what a scanner gives. -/
theorem Goes.last {go : α → Cursor → Prop}
    {post : EStateM.Result (Located LexError) Cursor β → Prop} {m : Scanner β} (h : post (m c)) :
    Goes go post ((do return .inr (← m) : Scanner (α ⊕ β)) c) := by
  cases hm : m c with
  | ok b c' =>
    rw [hm] at h
    rw [bind_ok hm]
    exact h
  | error e c' =>
    rw [hm] at h
    rw [bind_error hm]
    exact h

variable {step : Char → α → Scanner (α ⊕ β)} {atEnd : α → Scanner β}

/-- What a loop gives, if every step keeps the invariant and passes a character, or gives that. -/
theorem loop_rule {I : α → Cursor → Prop}
    {post : EStateM.Result (Located LexError) Cursor β → Prop} (h : I a c)
    (hend : ∀ a c, I a c → c.place.rest = [] → post (atEnd a c))
    (hstep : ∀ a c ch cs, I a c → c.place.rest = ch :: cs →
      Goes (fun a' c' => c'.place.rest.length ≤ cs.length ∧ I a' c') post (step ch a c)) :
    post (loop step atEnd a c) := by
  suffices halong : ∀ (bound : List Char) (a : α) (c : Cursor), I a c →
      c.place.rest.length ≤ bound.length → post (loopAlong step atEnd bound a c) from
    halong c.place.rest a c h (Nat.le_refl _)
  intro bound
  induction bound with
  | nil =>
    intro a c h hlength
    exact hend a c h (List.length_eq_zero_iff.1 (Nat.le_zero.1 hlength))
  | cons d bound ih =>
    intro a c h hlength
    cases hrest : c.place.rest with
    | nil =>
      have hpeek := peek_of (c := c) (o := none) (by rw [hrest, List.head?_nil])
      rw [loopAlong, bind_ok hpeek]
      exact hend a c h hrest
    | cons ch cs =>
      have hpeek := peek_of (c := c) (o := some ch) (by rw [hrest, List.head?_cons])
      have hgoes := hstep a c ch cs h hrest
      rw [loopAlong, bind_ok hpeek]
      dsimp only
      cases hresult : step ch a c with
      | error e c' =>
        rw [hresult] at hgoes
        rw [bind_error hresult]
        exact hgoes
      | ok r c' =>
        rw [hresult] at hgoes
        rw [bind_ok hresult]
        cases r with
        | inr b => exact hgoes
        | inl a' =>
          obtain ⟨hle, hinv⟩ := hgoes
          rw [hrest, List.length_cons, List.length_cons] at hlength
          exact ih a' c' hinv (by omega)

/-- A loop over a run of characters of one kind, none of which ends a line. -/
theorem loop_run {k : Char → Bool} {f : α → α} {g : String → Char → String} {r : α → β}
    (hline : ∀ ch, k ch = true → isNewline ch = false)
    (hgo : ∀ {ch cs p b a}, k ch = true → step ch a ⟨source, ⟨ch :: cs, p⟩, b⟩ =
      .ok (.inl (f a)) ⟨source, ⟨cs, p.after [ch]⟩, g b ch⟩)
    (hstop : ∀ {ch a c}, k ch = false → step ch a c = .ok (.inr (r a)) c)
    (hend : ∀ {a c}, atEnd a c = .ok (r a) c) {run rest : List Char}
    (hrun : ∀ ch ∈ run, k ch = true) (hrest : rest.head?.any k = false) :
    loop step atEnd a ⟨source, ⟨run ++ rest, p⟩, b⟩ =
      .ok (r (f^[run.length] a)) ⟨source, ⟨rest, p.after run⟩, run.foldl g b⟩ := by
  -- What the rest of the run makes of the state, the place and the buffer stays the same.
  refine @loop_rule _ _ _ _ _ _ (fun a' c => ∃ run' p' b', c = ⟨source, ⟨run' ++ rest, p'⟩, b'⟩ ∧
    (∀ ch ∈ run', k ch = true) ∧ f^[run'.length] a' = f^[run.length] a ∧
    p'.after run' = p.after run ∧ run'.foldl g b' = run.foldl g b)
    (· = _) ⟨run, p, b, rfl, hrun, rfl, rfl, rfl⟩ ?_ ?_
  · rintro a' _ ⟨run', p', b', rfl, -, hf, hp, hb⟩ hnil
    obtain ⟨rfl, rfl⟩ := List.append_eq_nil_iff.1 hnil
    rw [hend, ← hf, ← hp, ← hb]
    rfl
  · rintro a' _ ch cs ⟨run', p', b', rfl, hrun', hf, hp, hb⟩ hcs
    cases run' with
    | nil =>
      obtain rfl : rest = ch :: cs := hcs
      rw [hstop hrest, ← hf, ← hp, ← hb]
      rfl
    | cons d run' =>
      obtain ⟨rfl, rfl⟩ : d = ch ∧ run' ++ rest = cs := List.cons.inj hcs
      obtain ⟨hd, hrun'⟩ := List.forall_mem_cons.1 hrun'
      rw [List.cons_append, hgo hd]
      refine ⟨Nat.le_refl _, run', _, _, rfl, hrun', hf, ?_, hb⟩
      exact (Position.after_of_no_newline (hline d hd) p' run').symm.trans hp

/-! ## Runs of characters -/

theorem push_append (b : String) (ch : Char) (cs : List Char) :
    b.push ch ++ String.ofList cs = b ++ String.ofList (ch :: cs) := by
  rw [String.ofList_cons, ← String.append_assoc, String.append_singleton]

theorem push_eq_append (b : String) (ch : Char) : b.push ch = b ++ String.ofList [ch] := by
  rw [← push_append, String.ofList_nil, String.append_empty]

theorem foldl_push (cs : List Char) (b : String) :
    cs.foldl String.push b = b ++ String.ofList cs := by
  induction cs generalizing b with
  | nil => simp
  | cons ch cs ih => rw [List.foldl_cons, ih, push_append]

theorem saveWhile_eq {kind : Char → Bool} (hline : ∀ ch, kind ch = true → isNewline ch = false)
    {run rest : List Char} (hrun : ∀ ch ∈ run, kind ch = true)
    (hrest : rest.head?.any kind = false) :
    (whileNext kind saveAndAdvance : Scanner Unit) ⟨source, ⟨run ++ rest, p⟩, b⟩ =
      .ok () ⟨source, ⟨rest, p.after run⟩, b ++ String.ofList run⟩ := by
  rw [← foldl_push]
  refine loop_run (f := id) (r := id) hline (fun h => ?_) (fun h => ?_) rfl hrun hrest
  · rw [whileStep, if_pos h, bind_ok (saveAndAdvance_char (hline _ h))]
    rfl
  · rw [whileStep, h, if_neg Bool.false_ne_true]
    rfl

theorem advanceWhile_eq {kind : Char → Bool} (hline : ∀ ch, kind ch = true → isNewline ch = false)
    {run rest : List Char} (hrun : ∀ ch ∈ run, kind ch = true)
    (hrest : rest.head?.any kind = false) :
    (whileNext kind advance : Scanner Unit) ⟨source, ⟨run ++ rest, p⟩, b⟩ =
      .ok () ⟨source, ⟨rest, p.after run⟩, b⟩ := by
  have hfold : run.foldl (fun b _ => b) b = b := by simp
  conv_rhs => rw [← hfold]
  refine loop_run (f := id) (r := id) hline (fun h => ?_) (fun h => ?_) rfl hrun hrest
  · rw [whileStep, if_pos h, bind_ok (advance_char (hline _ h))]
    rfl
  · rw [whileStep, h, if_neg Bool.false_ne_true]
    rfl

theorem equals_eq {n : Nat} (h : cs.head? ≠ some '=') :
    (equals : Scanner Nat) ⟨source, ⟨List.replicate n '=' ++ cs, p⟩, b⟩ =
      .ok n ⟨source, ⟨cs, p.after (List.replicate n '=')⟩, b⟩ := by
  have hcount : (· + 1)^[(List.replicate n '=').length] 0 = n := by simp
  have hfold : (List.replicate n '=').foldl (fun b _ => b) b = b := by simp
  conv_rhs => rw [← hfold]
  nth_rewrite 2 [← hcount]
  refine loop_run (k := (· == '=')) (f := (· + 1)) (r := id) ?_ (fun h => ?_) (fun h => ?_)
    rfl (by simp) (by cases cs <;> simp_all)
  · intro ch hch
    obtain rfl := eq_of_beq hch
    decide
  · obtain rfl := eq_of_beq h
    rw [equalsStep, if_pos rfl, bind_ok (advance_char (by decide))]
    rfl
  · rw [equalsStep, if_neg (ne_of_beq_false h)]
    rfl

/-! ## Lexemes -/

/-- A scanner that starts at the place `q` gives what a scan says of the text there, and leaves
nothing in the buffer that a later value could begin with. -/
def Mirrors (source : List Char) (q : Place) (s : Scan (Except LexError Lexeme))
    (r : EStateM.Result (Located LexError) Cursor Token) : Prop :=
  match s.result with
  | .ok l => r = .ok { l with span := ⟨q.position, (q.skip s.size).position⟩ }
      ⟨source, q.skip s.size, ""⟩
  | .error e => ∃ b, r = .error ⟨e, Span.empty (q.skip s.size).position⟩
      ⟨source, q.skip s.size, b⟩ ∧ (b = "" ∨ (q.skip s.size).rest = [])

theorem mirrors_token {word rest : List Char} {n : Nat} {l : Lexeme} (hn : n = word.length) :
    Mirrors source ⟨word ++ rest, p⟩ ⟨n, .ok l⟩
      ((token ⟨cs, p⟩ l.symbol l.value : Scanner Token) ⟨source, ⟨rest, p.after word⟩, ""⟩) := by
  subst hn
  rw [Mirrors]
  dsimp only
  rw [Place.skip_append]
  rfl

theorem mirrors_fail {word rest : List Char} {n : Nat} {e : LexError} (hn : n = word.length) :
    Mirrors source ⟨word ++ rest, p⟩ ⟨n, .error e⟩
      ((fail e : Scanner Token) ⟨source, ⟨rest, p.after word⟩, ""⟩) := by
  subst hn
  rw [Mirrors]
  dsimp only
  rw [Place.skip_append]
  exact ⟨"", rfl, .inl rfl⟩

end Scanner

end LuaSource

-- SUMMARY: Rules by which a checked parser does what a parser does, one for each way of combining them.
import LuaSource.Checked.Chunk
import LuaSource.Proofs.Checked.Lexer
import LuaSource.Proofs.Grammar.Places

/-!
# Agreement of checked parsers

A checked parser agrees with a parser in a window whose tokens carry their texts if it gives the
same result or fault there, whatever the source is called, and leaves as many levels as it has
entered. Some checks pass because of
what has been read before, so that a sequence hands on what its first part has come to.
-/

namespace LuaSource

/-! ## Tokens that carry their texts -/

/-- A token of the window has a text if and only if its symbol carries one. -/
structure Window.Carries (w : Window) : Prop where
  ahead : ∀ t ∈ w.ahead, t.value.isSome = t.symbol.carriesText
  ending : ∀ t, w.ending = .ok t → t.value.isSome = t.symbol.carriesText

namespace Window.Carries

variable {w w' : Window} {t : Token}

theorem endToken (h : w.Carries) :
    w.endToken.value.isSome = w.endToken.symbol.carriesText := by
  rw [Window.endToken]
  cases hending : w.ending with
  | ok t => exact h.ending t hending
  | error e => rfl

theorem current (h : w.Carries) : w.current.value.isSome = w.current.symbol.carriesText := by
  rw [Window.current]
  cases hahead : w.ahead with
  | nil => exact h.endToken
  | cons t ts => exact h.ahead t (hahead ▸ List.mem_cons_self)

theorem consume (h : w.Carries) (hconsume : w.consume = .ok (t, w')) :
    t = w.current ∧ w'.Carries := by
  rw [Window.consume] at hconsume
  split at hconsume
  · cases hconsume
  · cases hconsume
    exact ⟨rfl, fun t ht => h.ahead t (List.mem_of_mem_tail ht), h.ending⟩

end Window.Carries

/-! ## Lists with separators -/

namespace Parse

variable {α : Type} {separator : Symbol} {item : Token → Parse α} {first : α} {as : List α}
  {w w' : Window}

theorem exists_of_separated (h : separated separator item first w = .ok (as, w')) :
    ∃ rest, as = first :: rest := by
  -- The items so far stand in reverse order, the first one at the end.
  refine Places.loop_ensures (I := fun items _ => ∃ rest, items = rest ++ [first])
    (R := fun as _ => ∃ rest, as = first :: rest) ?_ ⟨[], rfl⟩ as w' h
  rintro items v ⟨rest, rfl⟩ r v' hstep
  obtain ⟨token, v₁, h₁, h₂⟩ := bind_eq_ok_iff.1 hstep
  cases token with
  | some token =>
    obtain ⟨a, v₂, h₃, h₄⟩ := bind_eq_ok_iff.1 h₂
    cases h₄
    exact ⟨a :: rest, rfl⟩
  | none =>
    cases h₂
    exact ⟨rest.reverse, by rw [List.reverse_append]; rfl⟩

theorem exists_of_commaList {item : Parse α} (h : commaList item w = .ok (as, w')) :
    ∃ first rest, as = first :: rest := by
  obtain ⟨first, w₁, -, h₁⟩ := bind_eq_ok_iff.1 h
  exact ⟨first, exists_of_separated h₁⟩

end Parse

namespace Checked

open LuaSource (Window)

variable {α β : Type} {d : Nat}

namespace Parse

open LuaSource.Parse Parsing

/-- What a parser comes to, as it is told in a source with a name where `d` levels are entered. -/
def outcome (chunkName : String) (d : Nat) : Except (Located ParseFault) (α × Window) →
    Except ParseError (α × ParseState)
  | .ok (a, window) => .ok (a, { window, chunkName, depth := d })
  | .error e => .error { e with chunkName }

/-- In a window, the checked parser passes its checks, comes to the same as the other one, and is in
as many levels as before. The name of the source does nothing but appear in a fault. -/
structure AgreesAt (d : Nat) (g : Parse α) (f : LuaSource.Parse α) (w : Window) : Prop where
  eq : ∀ name, g { window := w, chunkName := name, depth := d } = some (outcome name d (f w))
  carries : ∀ a w', f w = .ok (a, w') → w'.Carries

/-- The parsers agree wherever tokens carry their texts. -/
def Agrees (d : Nat) (g : Parse α) (f : LuaSource.Parse α) : Prop :=
  ∀ w : Window, w.Carries → AgreesAt d g f w

theorem bind_apply (g : Parse α) (k : α → Parse β) (s : ParseState) :
    (g >>= k) s = Option.bind (g s) fun r => match r with
      | .ok (a, s) => k a s
      | .error e => some (.error e) := by
  show Option.bind _ _ = _
  congr 1
  funext r
  cases r <;> rfl

theorem bind_of_some {g : Parse α} {s s' : ParseState} {a : α} (h : g s = some (.ok (a, s')))
    (k : α → Parse β) : (g >>= k) s = k a s' := by
  rw [bind_apply, h, Option.bind_some]

theorem bind_of_error {g : Parse α} {s : ParseState} {e : ParseError}
    (h : g s = some (.error e)) (k : α → Parse β) : (g >>= k) s = some (.error e) := by
  rw [bind_apply, h, Option.bind_some]

theorem AgreesAt.bind {g : Parse α} {f : LuaSource.Parse α} {k : α → Parse β}
    {k' : α → LuaSource.Parse β} {w : Window} (h : AgreesAt d g f w)
    (hk : ∀ a w', f w = .ok (a, w') → w'.Carries → AgreesAt d (k a) (k' a) w') :
    AgreesAt d (g >>= k) (f >>= k') w := by
  refine ⟨fun name => ?_, fun b w'' hb => ?_⟩
  · rw [bind_apply, h.eq name, LuaSource.Parse.bind_apply]
    cases hf : f w with
    | error e => rfl
    | ok r => exact (hk r.1 r.2 hf (h.carries _ _ hf)).eq name
  · obtain ⟨a, w', hf, hb⟩ := LuaSource.Parse.bind_eq_ok_iff.1 hb
    exact (hk a w' hf (h.carries _ _ hf)).carries b w'' hb

/-- What the window shows is known where the parser goes on from it. -/
theorem AgreesAt.symbol {k : Symbol → Parse α} {k' : Symbol → LuaSource.Parse α} {w : Window}
    (h : AgreesAt d (k w.current.symbol) (k' w.current.symbol) w) :
    AgreesAt d (symbol >>= k) (symbol >>= k') w := ⟨h.eq, h.carries⟩

theorem AgreesAt.current {k : Token → Parse α} {k' : Token → LuaSource.Parse α} {w : Window}
    (h : AgreesAt d (k w.current) (k' w.current) w) :
    AgreesAt d (current >>= k) (current >>= k') w := ⟨h.eq, h.carries⟩

namespace Agrees

variable {g g' : Parse α} {f f' : LuaSource.Parse α}

protected theorem pure (a : α) : Agrees d (pure a) (pure a) := by
  refine fun w hw => ⟨fun _ => rfl, ?_⟩
  rintro _ _ ⟨⟩
  exact hw

protected theorem bind {k : α → Parse β} {k' : α → LuaSource.Parse β} (h : Agrees d g f)
    (hk : ∀ a, Agrees d (k a) (k' a)) : Agrees d (g >>= k) (f >>= k') :=
  fun w hw => (h w hw).bind fun a w' _ hw' => hk a w' hw'

/-- What every result of the first part is known to be can be relied on in the second. -/
protected theorem bind_of {post : α → Prop} {k : α → Parse β} {k' : α → LuaSource.Parse β}
    (h : Agrees d g f) (hpost : ∀ w a w', f w = .ok (a, w') → post a)
    (hk : ∀ a, post a → Agrees d (k a) (k' a)) : Agrees d (g >>= k) (f >>= k') :=
  fun w hw => (h w hw).bind fun a w' hf hw' => hk a (hpost w a w' hf) w' hw'

protected theorem map (h : Agrees d g f) (m : α → β) : Agrees d (m <$> g) (m <$> f) := by
  rw [map_eq_pure_bind, map_eq_pure_bind]
  exact h.bind fun _ => .pure _

protected theorem ite {p : Prop} [Decidable p] (h : Agrees d g f) (h' : Agrees d g' f') :
    Agrees d (if p then g else g') (if p then f else f') := by
  split
  · exact h
  · exact h'

/-- Two ways of going on behind which the same comes. -/
protected theorem ite_bind {p : Prop} [Decidable p] {k : α → Parse β} {k' : α → LuaSource.Parse β}
    (h : Agrees d g f) (h' : Agrees d g' f') (hk : ∀ a, Agrees d (k a) (k' a)) :
    Agrees d (if p then g >>= k else g' >>= k) (if p then f >>= k' else f' >>= k') :=
  .ite (h.bind hk) (h'.bind hk)

/-- A check passes where what is known is found. -/
protected theorem check {found : Option α} {known : α} (h : found = some known) :
    Agrees d (check found known) (check found known) := by
  subst h
  exact .pure known

/-! ## Tokens -/

protected theorem look (value : Window → α) :
    Agrees d (look value) (fun w => .ok (value w, w)) := by
  refine fun w hw => ⟨fun _ => rfl, ?_⟩
  rintro _ _ ⟨⟩
  exact hw

protected theorem symbol : Agrees d symbol symbol := .look _

protected theorem followingSymbol : Agrees d followingSymbol followingSymbol :=
  .look _

protected theorem onSameLine : Agrees d onSameLine onSameLine := .look _

protected theorem current : Agrees d current current := .look _

protected theorem ahead : Agrees d ahead ahead := .look _

protected theorem fail (fault : String → ParseFault) :
    Agrees d (fail fault : Parse α) (fail fault) := by
  refine fun w hw => ⟨fun name => ?_, nofun⟩
  show Option.map _ (text? w.current) = _
  rw [text?_of hw.current]
  rfl

protected theorem consume : Agrees d consume consume := by
  refine fun w hw => ⟨fun name => ?_, fun t w' h => (hw.consume h).2⟩
  simp only [Parsing.consume]
  cases w.consume <;> rfl

protected theorem accept (s : Symbol) : Agrees d (accept s) (accept s) :=
  .bind .symbol fun _ => .ite (.bind .consume fun _ => .pure _) (.pure _)

protected theorem expect (s : Symbol) : Agrees d (expect s) (expect s) :=
  .bind .symbol fun _ => .ite .consume (.fail _)

protected theorem expectClosing (closer opener : Symbol) (line : Nat) :
    Agrees d (expectClosing closer opener line) (expectClosing closer opener line) :=
  .bind .current fun _ => .ite .consume (.ite (.fail _) (.fail _))

/-- The text of a token whose symbol carries one. -/
protected theorem content {t : Token} (h : t.value.isSome = t.symbol.carriesText)
    (hsymbol : t.symbol.carriesText = true) : Agrees d (content t) (content t) := by
  rw [hsymbol] at h
  obtain ⟨v, hv⟩ := Option.isSome_iff_exists.1 h
  exact .check (by rw [Token.content, hv, Option.getD_some])

protected theorem expectName : Agrees d expectName expectName := by
  refine fun w hw => (Agrees.expect .name w hw).bind fun t w' ht hw' => ?_
  by_cases hname : w.current.symbol = .name
  · rw [LuaSource.Parse.expect_of_eq hname] at ht
    obtain ⟨rfl, -⟩ := hw.consume ht
    have htext : w.current.symbol.carriesText = true := by
      rw [hname]
      rfl
    exact (Agrees.content hw.current htext).bind (fun _ => .pure _) w' hw'
  · rw [LuaSource.Parse.expect_of_ne hname] at ht
    cases ht

/-! ## Repetition -/

protected theorem loopAlong {step : α → Parse (α ⊕ β)} {step' : α → LuaSource.Parse (α ⊕ β)}
    (h : ∀ a, Agrees d (step a) (step' a)) (ts : List Token) (a : α) :
    Agrees d (loopAlong step ts a) (loopAlong step' ts a) := by
  induction ts generalizing a with
  | nil =>
    refine (h a).bind fun r => ?_
    cases r with
    | inl _ => exact .fail _
    | inr b => exact .pure b
  | cons t ts ih =>
    refine (h a).bind fun r => ?_
    cases r with
    | inl a => exact ih a
    | inr b => exact .pure b

protected theorem loop {step : α → Parse (α ⊕ β)} {step' : α → LuaSource.Parse (α ⊕ β)}
    (h : ∀ a, Agrees d (step a) (step' a)) (a : α) :
    Agrees d (loop step a) (loop step' a) :=
  .bind .ahead fun ts => .loopAlong h ts a

protected theorem separated (separator : Symbol) {item : Token → Parse α}
    {item' : Token → LuaSource.Parse α} (h : ∀ t, Agrees d (item t) (item' t)) (first : α) :
    Agrees d (separated separator item first) (separated separator item' first) := by
  refine .loop (fun items => .bind (.accept _) fun t => ?_) _
  cases t with
  | none => exact .pure _
  | some t => exact (h t).bind fun _ => .pure _

protected theorem commaList (h : Agrees d g f) :
    Agrees d (commaList g) (commaList f) :=
  h.bind fun first => .separated _ (fun _ => h) first

end Agrees

end Parse

end Checked

end LuaSource

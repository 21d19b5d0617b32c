import ClauseLang.Reader.Grammar

namespace ClauseLang.Reader

variable {α β : Type}

/-! ### Recursions one step at a time -/

/-- One more repetition. -/
def manyStep (p : Reader α) (rest : Reader (List α)) : Reader (List α) := do
  match ← attempt p with
  | none => pure []
  | some a => return a :: (← rest)

/-- A formal without a guard, with the reader for those in it. -/
def simpleStep (expr rest : Reader Expr) : Reader Expr := do
  match ← nextLexeme? with
  | some (.ident _) => Expr.identifier <$> ident
  | some .lbracket => either (cons rest) (list expr)
  | _ => literal

/-- One more clause. -/
def clausesStep (expr : Reader Expr) (rest : Option Nat → Reader (List RawClause))
    (first : Option Nat) : Reader (List RawClause) := do
  match ← nextLexeme? with
  | none | some .rbrace => return []
  | some .fatArrow =>
    let clause ← defaultClause expr first
    return clause :: (← rest first)
  | some _ =>
    let clause ← plainClause expr
    return clause :: (← rest (first.or (some clause.row.length)))

theorem manyWithin_succ (p : Reader α) (n : Nat) :
    manyWithin p (n + 1) = manyStep p (manyWithin p n) :=
  rfl

theorem simpleWithin_succ (expr : Reader Expr) (n : Nat) :
    simpleWithin expr (n + 1) = simpleStep expr (simpleWithin expr n) := by
  funext s
  simp only [simpleWithin, simpleStep, bind, EStateM.bind, nextLexeme?]
  cases s.peek?.map Token.lexeme with
  | none => rfl
  | some l => cases l <;> rfl

theorem clausesWithin_succ (expr : Reader Expr) (first : Option Nat) (n : Nat) :
    clausesWithin expr first (n + 1) =
      clausesStep expr (fun first => clausesWithin expr first n) first :=
  rfl

/-- Relations of readers that go along with how the grammar is put together. There is one for each
bound `n` on what is left and each number `k` of tokens that are taken at least, and the first
argument says whether errors of the check on clauses may get out. `Left k n m` holds if `m` is a bound
after `k` tokens were taken where `n` was one; errors are about tokens that are `Mine`. -/
structure Compositional (Left : Nat → Nat → Nat → Prop) (Mine : Token → Prop)
    (T : Bool → Nat → Nat → ∀ {α : Type}, Reader α → Reader α → Prop) : Prop where
  left_trans : ∀ {n m j}, Left 1 n m → Left 1 m j → Left 1 n j
  mono : ∀ {α : Type} {b n m k c} {p q : Reader α}, Left k n m → T b n c p q → T b m c p q
  open_of : ∀ {α : Type} {b n k} {p q : Reader α}, T b n k p q → T true n k p q
  pure : ∀ {α : Type} {b n} (a : α), T b n 0 (pure a) (pure a)
  nextLexeme? : ∀ {b n}, T b n 0 nextLexeme? nextLexeme?
  stuck : ∀ {α : Type} {b n k}, T b n k (stuck : Reader α) stuck
  refuse_integer : ∀ {α : Type} {b n k token numeral}, Mine token →
    let e := { problem := .integerOutOfRange numeral, position := some token.span }
    T b n k (refuse e : Reader α) (refuse e)
  refuse_check : ∀ {α : Type} {n k token problem}, Mine token →
    let e := { problem, position := some token.span }
    T true n k (refuse e : Reader α) (refuse e)
  defaultFirst : ∀ {n k expr}, T true n k (defaultClause expr none) (defaultClause expr none)
  accept_bind : ∀ {α β : Type} {b n c} {read : Token → Option α} {f g : α → Reader β} (expected),
    (∀ token a m, Mine token → read token = some a → Left 1 n m → T b m (c - 1) (f a) (g a)) →
      T b n c (accept read expected >>= f) (accept read expected >>= g)
  bind : ∀ {α β : Type} {b n k c} {p q : Reader α} {f g : α → Reader β}, T b n k p q →
    (∀ a m, Left k n m → T b m (c - k) (f a) (g a)) → T b n c (p >>= f) (q >>= g)
  attempt_bind : ∀ {α β : Type} {b n k c} {p q : Reader α} {f g : Option α → Reader β},
    T true n k p q → (∀ a m, Left k n m → T b m (c - k) (f (some a)) (g (some a))) →
      T b n c (f none) (g none) → T b n c (attempt p >>= f) (attempt q >>= g)
  named : ∀ {α : Type} {b n k} {p q : Reader α} (name), T false n k p q →
    T b n k (named name p) (named name q)
  within : ∀ {α : Type} {b n k} {f g : Nat → Reader α}, (∀ d, T b n k (f d) (g d)) →
    T b n k (within f) (within g)

namespace Compositional

variable {Left : Nat → Nat → Nat → Prop} {Mine : Token → Prop}
  {T : Bool → Nat → Nat → ∀ {α : Type}, Reader α → Reader α → Prop}
  (hT : Compositional Left Mine T) {b : Bool} {n k c : Nat}

include hT

/-- What comes next may keep to the bound that there is at first. -/
theorem seq {p q : Reader α} {f g : α → Reader β} (hp : T b n k p q)
    (hf : ∀ a, T b n (c - k) (f a) (g a)) : T b n c (p >>= f) (q >>= g) :=
  hT.bind hp fun a _ hm => hT.mono hm (hf a)

theorem accept (read : Token → Option α) (expected : String) :
    T b n 1 (accept read expected) (accept read expected) := by
  rw [← bind_pure (Reader.accept read expected)]
  exact hT.accept_bind expected fun _ a _ _ _ _ => hT.pure a

theorem word (l : Lexeme) : T b n 1 (word l) (word l) :=
  hT.accept _ _

theorem map {p q : Reader α} (f : α → β) (hp : T b n k p q) : T b n k (f <$> p) (f <$> q) := by
  rw [← bind_pure_comp, ← bind_pure_comp]
  exact hT.seq hp fun a => (Nat.sub_self k).symm ▸ hT.pure (f a)

theorem either {p p' q q' : Reader α} (hp : T true n k p q) (hp' : T b n k p' q') :
    T b n k (either p p') (either q q') :=
  hT.attempt_bind hp (fun a _ _ => (Nat.sub_self k).symm ▸ hT.pure a) hp'

theorem manyStep {p q : Reader α} {r r' : Reader (List α)} (hp : T true n 1 p q)
    (hr : ∀ m, Left 1 n m → T b m 0 r r') : T b n 0 (manyStep p r) (manyStep q r') :=
  hT.attempt_bind hp (fun _ m hm => hT.seq (hr m hm) fun _ => hT.pure _) (hT.pure [])

theorem many {p q : Reader α} (hp : T true n 1 p q) : T b n 0 (many p) (many q) := by
  refine hT.within fun d => ?_
  induction d generalizing n with
  | zero => exact hT.pure []
  | succ d ih =>
    rw [manyWithin_succ, manyWithin_succ]
    exact hT.manyStep hp fun m hm => ih (hT.mono hm hp)

theorem many1 {p q : Reader α} (hp : T b n 1 p q) : T b n 1 (many1 p) (many1 q) :=
  hT.bind hp fun _ _ hm => hT.seq (hT.many (hT.mono hm (hT.open_of hp))) fun _ => hT.pure _

/-! ### The grammar -/

theorem integer : T b n 1 integer integer := by
  refine hT.accept_bind "integer" fun token a m hmine ha _ => ?_
  split at ha
  · cases ha
    dsimp only
    split
    · exact hT.pure _
    · exact hT.refuse_integer hmine
  · cases ha

theorem literal : T b n 1 literal literal :=
  hT.either (hT.either (hT.accept _ _) (hT.accept _ _)) hT.integer

theorem atom : T b n 1 atom atom :=
  hT.named _ (hT.either (hT.map _ (hT.either (hT.accept _ _) (hT.accept _ _))) hT.literal)

/-! Each rule takes a token of its own before it comes to an expression, so the two readers for
expressions have to be related only where a token has been taken. -/

variable {p q : Reader Expr} (h : ∀ m, Left 1 n m → T true m 1 p q)

include h

theorem letIn : T true n 1 (letIn p) (letIn q) :=
  hT.bind (hT.word _) fun _ m hm => hT.seq (hT.named _ (hT.accept _ _)) fun _ =>
    hT.seq (hT.word _) fun _ => hT.seq (h m hm) fun _ => hT.seq (h m hm) fun _ => hT.pure _

theorem application : T b n 1 (application p) (application q) :=
  hT.bind (hT.word _) fun _ m hm => hT.seq (hT.many (h m hm)) fun _ =>
    hT.seq (hT.word _) fun _ => hT.pure _

theorem list : T b n 1 (list p) (list q) :=
  hT.bind (hT.word _) fun _ m hm => hT.seq (hT.many (h m hm)) fun _ =>
    hT.seq (hT.word _) fun _ => hT.pure _

theorem condition : T true n 1 (condition p) (condition q) :=
  hT.either (hT.bind (hT.word _) fun _ m hm => hT.seq (h m hm) fun _ => hT.pure _)
    (hT.bind (hT.word _) fun _ m hm => hT.seq (h m hm) fun _ => hT.pure _)

theorem guardedName : T b n 1 (guardedName p) (guardedName q) :=
  hT.seq (hT.accept _ _) fun _ =>
    hT.attempt_bind (hT.condition h) (fun _ _ _ => hT.pure _) (hT.pure _)

omit h in
theorem cons {simple simple' : Reader Expr} (h : ∀ m, Left 1 n m → T b m 1 simple simple') :
    T b n 1 (cons simple) (cons simple') :=
  hT.bind (hT.word _) fun _ m hm => hT.seq (h m hm) fun _ => hT.seq (hT.word _) fun _ =>
    hT.seq (h m hm) fun _ => hT.seq (hT.word _) fun _ => hT.pure _

theorem simpleStep {r r' : Reader Expr} (hr : ∀ m, Left 1 n m → T b m 1 r r') :
    T b n 1 (simpleStep p r) (simpleStep q r') := by
  refine hT.seq hT.nextLexeme? fun l => ?_
  split
  · exact hT.map _ (hT.accept _ _)
  · exact hT.either (hT.open_of (hT.cons hr)) (hT.list h)
  · exact hT.literal

theorem simple : T b n 1 (simple p) (simple q) := by
  refine hT.within fun d => ?_
  induction d generalizing n with
  | zero => exact hT.stuck
  | succ d ih =>
    rw [simpleWithin_succ, simpleWithin_succ]
    exact hT.simpleStep h fun m hm => ih fun j hj => h j (hT.left_trans hm hj)

theorem formal : T b n 1 (formal p) (formal q) := by
  refine hT.seq hT.nextLexeme? fun l => ?_
  split
  · exact hT.guardedName h
  · have hsimple (m : Nat) (hm : Left 1 n m) : T true m 1 (Reader.simple p) (Reader.simple q) :=
      hT.simple fun j hj => h j (hT.left_trans hm hj)
    exact hT.either (hT.cons hsimple) (hT.list h)
  · exact hT.literal

theorem row : T b n 1 (Reader.named "match" (Reader.many1 (Reader.formal p)))
    (Reader.named "match" (Reader.many1 (Reader.formal q))) :=
  hT.named _ (hT.many1 (hT.formal h))

theorem defaultClause (first : Option Nat) :
    T true n 1 (defaultClause p first) (defaultClause q first) := by
  cases first with
  | none => exact hT.defaultFirst
  | some arity => exact hT.bind (hT.word _) fun _ m hm => hT.seq (h m hm) fun _ => hT.pure _

theorem plainClause : T true n 1 (plainClause p) (plainClause q) := by
  refine hT.bind (hT.row h) fun _ m hm => hT.seq hT.nextLexeme? fun l => ?_
  split
  · exact hT.seq (hT.word _) fun _ => hT.seq (h m hm) fun _ => hT.pure _
  · exact hT.pure _

theorem clausesStep {r r' : Option Nat → Reader (List RawClause)}
    (hr : ∀ m, Left 1 n m → ∀ first, T true m 0 (r first) (r' first)) (first : Option Nat) :
    T true n 0 (clausesStep p r first) (clausesStep q r' first) := by
  refine hT.seq hT.nextLexeme? fun l => ?_
  split
  · exact hT.pure _
  · exact hT.pure _
  · exact hT.bind (hT.defaultClause h first) fun _ m hm => hT.seq (hr m hm _) fun _ => hT.pure _
  · exact hT.bind (hT.plainClause h) fun _ m hm => hT.seq (hr m hm _) fun _ => hT.pure _

theorem clauses (first : Option Nat) :
    T true n 0 (Reader.within (clausesWithin p first))
      (Reader.within (clausesWithin q first)) := by
  refine hT.within fun d => ?_
  induction d generalizing n first with
  | zero => exact hT.stuck
  | succ d ih =>
    rw [clausesWithin_succ, clausesWithin_succ]
    exact hT.clausesStep h (fun m hm first => ih (fun j hj => h j (hT.left_trans hm hj)) first) first

theorem pattern : T true n 1 (pattern p) (pattern q) := by
  refine hT.accept_bind _ fun brace token m hmine htoken hm => ?_
  obtain rfl : brace = token := by
    split at htoken
    · exact Option.some.inj htoken
    · cases htoken
  refine hT.seq (hT.clauses (fun j hj => h j (hT.left_trans hm hj)) none) fun raws =>
    hT.seq (hT.word _) fun _ => ?_
  split
  · exact hT.pure _
  · exact hT.refuse_check hmine

theorem level : T true n 1 (level p) (level q) := by
  refine hT.seq hT.nextLexeme? fun l => ?_
  split
  · exact hT.letIn h
  · exact hT.pattern h
  · exact hT.application h
  · exact hT.list h
  · exact hT.atom

omit h in
theorem expression : T true n 1 expression expression := by
  refine hT.within fun d => ?_
  induction d generalizing n with
  | zero => exact hT.stuck
  | succ d ih => exact hT.level fun _ _ => ih

end Compositional

end ClauseLang.Reader

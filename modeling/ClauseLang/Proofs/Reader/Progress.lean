import Mathlib.Logic.Function.Iterate
import ClauseLang.Proofs.Reader.Sound

/-!
Reading ends. A rule that reads something takes a token before it comes to a rule that is like it,
so that nesting and repetition go no deeper than there are tokens left.

Bounds on nesting are to be such that they make no difference. That a greater bound gives the same
is not enough for this: if a rule tried itself first of all, and something else after that, then each
bound would give the same although the rule without a bound would not end. So what stands at the
bound is left open here, and nothing that could stand there makes a difference.
-/

namespace ClauseLang

namespace ReadState

/-- The cursor is not behind the tokens, and at most so many of them are left. -/
def HasLeft (n : Nat) (s : ReadState) : Prop :=
  s.index ≤ s.tokens.size ∧ s.remaining ≤ n

/-- The cursor is at least so many tokens further on, and not behind the tokens. -/
def Onward (k : Nat) (s s' : ReadState) : Prop :=
  s'.tokens = s.tokens ∧ s.index + k ≤ s'.index ∧ s'.index ≤ s.tokens.size

variable {j k m n : Nat} {s s' s'' : ReadState}

theorem HasLeft.mono (h : s.HasLeft m) (hmn : m ≤ n) : s.HasLeft n :=
  ⟨h.1, Nat.le_trans h.2 hmn⟩

theorem HasLeft.onward (h : s.HasLeft n) : s.Onward 0 s :=
  ⟨rfl, Nat.le_refl _, h.1⟩

theorem onward_advance {token : Token} (hpeek : s.peek? = some token) :
    s.Onward 1 s.advance := by
  have hnext : s.index < s.tokens.size := (Array.getElem?_eq_some_iff.1 hpeek).1
  have hadvance : s.advance = { s with index := s.index + 1 } := if_pos (decide_eq_true hnext)
  rw [hadvance]
  exact ⟨rfl, Nat.le_refl _, hnext⟩

theorem index_record (s : ReadState) (e : ParseError) : (s.record e).index = s.index := by
  unfold record
  split
  · rfl
  · split
    · rfl
    · split <;> rfl

namespace Onward

theorem mono (h : s.Onward k s') (hjk : j ≤ k) : s.Onward j s' :=
  ⟨h.1, by have := h.2.1; omega, h.2.2⟩

theorem trans (h : s.Onward j s') (h' : s'.Onward k s'') : s.Onward (j + k) s'' :=
  ⟨h'.1.trans h.1, by have := h.2.1; have := h'.2.1; omega, h.1 ▸ h'.2.2⟩

theorem hasLeft (h : s.Onward k s') (hs : s.HasLeft n) : ∃ m, m + k ≤ n ∧ s'.HasLeft m := by
  obtain ⟨htokens, hfrom, hto⟩ := h
  have hleft := hs.2
  refine ⟨s'.remaining, ?_, by rwa [htokens], Nat.le_refl _⟩
  simp only [remaining, htokens] at hleft ⊢
  omega

theorem record (h : s.Onward k s') (e : ParseError) : s.Onward k (s'.record e) := by
  obtain ⟨htokens, hfrom, hto⟩ := h
  refine ⟨by rw [tokens_record, htokens], ?_, ?_⟩ <;> rwa [index_record]

theorem restore (h : s.Onward k s') (hs : s.HasLeft n) : s.Onward 0 (s'.restore s.index) :=
  ⟨h.1, Nat.le_refl _, hs.1⟩

end Onward

variable {α : Type} {r : EStateM.Result ParseError ReadState α}

/-- What a reading from here comes to. One that succeeds takes at least so many tokens, one that fails
does not go back, and neither goes behind the tokens. -/
def Ends (k : Nat) (s : ReadState) : EStateM.Result ParseError ReadState α → Prop
  | .ok _ s' => s.Onward k s'
  | .error _ s' => s.Onward 0 s'

theorem Ends.after (h : s'.Ends (k - j) r) (hs : s.Onward j s') : s.Ends k r := by
  cases r with
  | ok a s'' => exact (hs.trans h).mono (by omega)
  | error e s'' => exact (hs.trans h).mono (Nat.zero_le _)

end ReadState

namespace Reader

variable {α β : Type} {c k m n : Nat}

/-- If at most `n` tokens are left, then it makes no difference which of the two readers is used, and
at least `k` tokens are taken. -/
def InStep (n k : Nat) (p q : Reader α) : Prop :=
  ∀ s : ReadState, s.HasLeft n → p s = q s ∧ s.Ends k (p s)

namespace InStep

variable {p q : Reader α}

theorem mono (h : InStep n k p q) (hmn : m ≤ n) : InStep m k p q :=
  fun s hs => h s (hs.mono hmn)

theorem symm (h : InStep n k p q) : InStep n k q p := by
  intro s hs
  obtain ⟨heq, hends⟩ := h s hs
  exact ⟨heq.symm, heq ▸ hends⟩

theorem self (h : InStep n k p q) : InStep n k p p :=
  fun s hs => ⟨rfl, (h s hs).2⟩

theorem ok (h : InStep n k p q) {s s' : ReadState} {a : α} (hs : s.HasLeft n)
    (hp : p s = .ok a s') : q s = .ok a s' ∧ s.Onward k s' := by
  obtain ⟨heq, hends⟩ := h s hs
  rw [hp] at heq hends
  exact ⟨heq.symm, hends⟩

theorem error (h : InStep n k p q) {s s' : ReadState} {e : ParseError} (hs : s.HasLeft n)
    (hp : p s = .error e s') : q s = .error e s' ∧ s.Onward 0 s' := by
  obtain ⟨heq, hends⟩ := h s hs
  rw [hp] at heq hends
  exact ⟨heq.symm, hends⟩

/-- The bound on the tokens that are left goes down by what is taken first. -/
theorem bind {f g : α → Reader β} (hp : InStep n k p q)
    (hf : ∀ a m, m + k ≤ n → InStep m (c - k) (f a) (g a)) : InStep n c (p >>= f) (q >>= g) := by
  intro s hs
  cases h : p s with
  | error e s' =>
    obtain ⟨hq, ht⟩ := hp.error hs h
    rw [bind_eq_error h, bind_eq_error hq]
    exact ⟨rfl, ht⟩
  | ok a s' =>
    obtain ⟨hq, ht⟩ := hp.ok hs h
    obtain ⟨m, hm, hs'⟩ := ht.hasLeft hs
    rw [bind_eq_ok h, bind_eq_ok hq]
    exact ⟨(hf a m hm s' hs').1, (hf a m hm s' hs').2.after ht⟩

theorem accept_bind {read : Token → Option α} {f g : α → Reader β} (expected : String)
    (hf : ∀ token a m, read token = some a → m + 1 ≤ n → InStep m (c - 1) (f a) (g a)) :
    InStep n c (accept read expected >>= f) (accept read expected >>= g) := by
  intro s hs
  change EStateM.bind (accept read expected) f s = EStateM.bind (accept read expected) g s ∧
    s.Ends c (EStateM.bind (accept read expected) f s)
  unfold EStateM.bind accept
  cases hpeek : s.peek? with
  | none => exact ⟨rfl, hs.onward.record _⟩
  | some token =>
    dsimp only
    cases ha : read token with
    | none => exact ⟨rfl, hs.onward.record _⟩
    | some a =>
      have ht := ReadState.onward_advance hpeek
      obtain ⟨m, hm, hs'⟩ := ht.hasLeft hs
      exact ⟨(hf token a m ha hm _ hs').1, (hf token a m ha hm _ hs').2.after ht⟩

theorem named (name : String) (hp : InStep n k p q) :
    InStep n k (Reader.named name p) (Reader.named name q) := by
  intro s hs
  unfold Reader.named
  cases h : p s with
  | ok a s' =>
    obtain ⟨hq, ht⟩ := hp.ok hs h
    rw [hq]
    exact ⟨rfl, ht⟩
  | error e s' =>
    obtain ⟨hq, ht⟩ := hp.error hs h
    rw [hq]
    exact ⟨rfl, ht.record _⟩

/-- After an attempt that succeeded there are fewer tokens left. After one that failed the cursor is
where it was. -/
theorem attempt_bind {f g : Option α → Reader β} (hp : InStep n k p q)
    (hsome : ∀ a m, m + k ≤ n → InStep m (c - k) (f (some a)) (g (some a)))
    (hnone : InStep n c (f none) (g none)) :
    InStep n c (attempt p >>= f) (attempt q >>= g) := by
  intro s hs
  cases h : p s with
  | ok a s' =>
    obtain ⟨hq, ht⟩ := hp.ok hs h
    obtain ⟨m, hm, hs'⟩ := ht.hasLeft hs
    rw [bind_eq_ok (attempt_eq_ok h), bind_eq_ok (attempt_eq_ok hq)]
    exact ⟨(hsome a m hm s' hs').1, (hsome a m hm s' hs').2.after ht⟩
  | error e s' =>
    obtain ⟨hq, ht⟩ := hp.error hs h
    obtain ⟨m, hm, hs'⟩ := (ht.restore hs).hasLeft hs
    obtain ⟨heq, hends⟩ := hnone _ (hs'.mono hm)
    rw [bind_eq_ok (attempt_eq_none h), bind_eq_ok (attempt_eq_none hq)]
    exact ⟨heq, hends.after (j := 0) (ht.restore hs)⟩

end InStep

/-- Where less is left after each token that is taken, the rules of the grammar are in step. -/
theorem inStep_compositional :
    Compositional (fun k n m => m + k ≤ n) (fun _ => True) fun _ n k {_} p q => InStep n k p q where
  left_trans h h' := by omega
  mono hm h := h.mono (by omega)
  open_of h := h
  pure _ _ hs := ⟨rfl, hs.onward⟩
  nextLexeme? _ hs := ⟨rfl, hs.onward⟩
  stuck _ hs := ⟨rfl, hs.onward⟩
  refuse_integer _ _ hs := ⟨rfl, hs.onward⟩
  refuse_check _ _ hs := ⟨rfl, hs.onward⟩
  defaultFirst _ hs := ⟨rfl, hs.onward⟩
  accept_bind expected hf := .accept_bind expected fun token a m ha hm => hf token a m trivial ha hm
  bind hp hf := hp.bind hf
  attempt_bind hp hsome hnone := hp.attempt_bind hsome hnone
  named name hp := hp.named name
  within h s := h (s.remaining + 1) s

/-! ### Repetition and nesting -/

/-- Two recursions whose steps keep a relation, if it holds where less is left, are related as soon as
they go deeper than there is left, whatever they begin with. -/
theorem iterate_related {ρ : Type} {P : Nat → ρ → ρ → Prop} {F G : ρ → ρ} {n : Nat}
    (step : ∀ m ≤ n, ∀ r r', (∀ j < m, P j r r') → P m (F r) (G r')) {d d' : Nat} (hd : n < d)
    (hd' : n < d') (b b' : ρ) : P n (F^[d] b) (G^[d'] b') := by
  induction n using Nat.strongRecOn generalizing d d' with
  | ind n ih =>
    obtain ⟨e, rfl⟩ := Nat.exists_eq_add_one_of_ne_zero (Nat.ne_zero_of_lt hd)
    obtain ⟨e', rfl⟩ := Nat.exists_eq_add_one_of_ne_zero (Nat.ne_zero_of_lt hd')
    rw [Function.iterate_succ_apply', Function.iterate_succ_apply']
    refine step n (Nat.le_refl _) _ _ fun j hj => ?_
    exact ih j hj (fun m hm => step m (by omega)) (by omega) (by omega)

/-- The recursion goes no deeper than `n` steps where we look at it, and `p` is what it comes to: the
step does not change `p`, and nothing that may stand for the steps further down makes a difference. -/
structure EndsWithin {ρ β : Type} (n : Nat) (look : ρ → β) (F : ρ → ρ) (p : ρ) : Prop where
  fixed : look p = look (F p)
  settles : ∀ d, n < d → ∀ b, look (F^[d] b) = look p

theorem EndsWithin.of_step {ρ β : Type} {P : Nat → ρ → ρ → Prop} {look : ρ → β} {F : ρ → ρ}
    {p : ρ} (step : ∀ m r r', (∀ j < m, P j r r') → P m (F r) (F r'))
    (hp : ∀ m d, m < d → ∀ b, P m p (F^[d] b)) (hlook : ∀ r r', P n r r' → look r = look r') :
    EndsWithin n look F p where
  fixed := by
    have hF : P n (F p) (F^[n + 1] p) := by
      rw [Function.iterate_succ_apply']
      exact step n _ _ fun j hj => hp j n hj p
    rw [hlook _ _ hF]
    exact hlook _ _ (hp n (n + 1) (Nat.lt_succ_self n) p)
  settles d hd b := (hlook _ _ (hp n d hd b)).symm

theorem eq_iterate {ρ : Type} {F : ρ → ρ} {f : Nat → ρ} (succ : ∀ d, f (d + 1) = F (f d))
    (d : Nat) : f d = F^[d] (f 0) := by
  induction d with
  | zero => rfl
  | succ d ih => rw [Function.iterate_succ_apply', ← ih, succ]

theorem manyWithin_eq (p : Reader α) (d : Nat) : manyWithin p d = (manyStep p)^[d] (pure []) :=
  eq_iterate (manyWithin_succ p) d

theorem simpleWithin_eq (expr : Reader Expr) (d : Nat) :
    simpleWithin expr d = (simpleStep expr)^[d] stuck :=
  eq_iterate (simpleWithin_succ expr) d

theorem clausesWithin_eq (expr : Reader Expr) (d : Nat) :
    (fun first => clausesWithin expr first d) = (clausesStep expr)^[d] fun _ => stuck := by
  refine eq_iterate (f := fun d first => clausesWithin expr first d) (fun d => ?_) d
  funext first
  exact clausesWithin_succ expr first d

theorem expressionWithin_eq (d : Nat) : expressionWithin d = level^[d] stuck :=
  eq_iterate (f := expressionWithin) (fun _ => rfl) d

/-! ### Bounds make no difference -/

/-- A bounded recursion is in step with one that goes deeper than there are tokens left. -/
theorem InStep.within_iterate {F : Reader α → Reader α} {f : Nat → Reader α} {b₀ : Reader α}
    (hf : ∀ d, f d = F^[d] b₀)
    (step : ∀ m r r', (∀ j < m, InStep j k r r') → InStep m k (F r) (F r')) {d : Nat} (hd : n < d)
    (b : Reader α) : InStep n k (Reader.within f) (F^[d] b) := by
  intro s hs
  have hiterate := iterate_related (fun m _ => step m) (Nat.lt_succ_self s.remaining)
    (Nat.lt_of_le_of_lt hs.2 hd) b₀ b
  rw [← hf] at hiterate
  exact hiterate s ⟨hs.1, Nat.le_refl _⟩

theorem expression_inStep_iterate {d : Nat} (hd : n < d) (b : Reader Expr) :
    InStep n 1 expression (level^[d] b) :=
  .within_iterate expressionWithin_eq (fun _ _ _ hr => inStep_compositional.level hr) hd b

theorem expression_inStep (n : Nat) : InStep n 1 expression expression :=
  (expression_inStep_iterate (Nat.lt_succ_self n) expression).self

section

variable {s : ReadState} (hs : s.index ≤ s.tokens.size)
include hs

theorem many_endsWithin {p : Reader α} (hp : ∀ n, InStep n 1 p p) :
    EndsWithin s.remaining (· s) (manyStep p) (many p) := by
  have hstep (m : Nat) (r r' : Reader (List α)) (hr : ∀ j < m, InStep j 0 r r') :
      InStep m 0 (manyStep p r) (manyStep p r') :=
    inStep_compositional.manyStep (b := true) (hp m) hr
  exact .of_step hstep (fun m d hd b => .within_iterate (manyWithin_eq p) hstep hd b)
    fun r r' hr => (hr s ⟨hs, Nat.le_refl _⟩).1

theorem simple_endsWithin :
    EndsWithin s.remaining (· s) (simpleStep expression) (simple expression) := by
  have hstep (m : Nat) (r r' : Reader Expr) (hr : ∀ j < m, InStep j 1 r r') :
      InStep m 1 (simpleStep expression r) (simpleStep expression r') :=
    inStep_compositional.simpleStep (b := true) (fun j _ => expression_inStep j) hr
  exact .of_step hstep (fun m d hd b => .within_iterate (simpleWithin_eq expression) hstep hd b)
    fun r r' hr => (hr s ⟨hs, Nat.le_refl _⟩).1

theorem clauses_endsWithin (first : Option Nat) :
    EndsWithin s.remaining (· first s) (clausesStep expression)
      fun first => within (clausesWithin expression first) := by
  have hstep (m : Nat) (r r' : Option Nat → Reader (List RawClause))
      (hr : ∀ j < m, ∀ first, InStep j 0 (r first) (r' first)) (first : Option Nat) :
      InStep m 0 (clausesStep expression r first) (clausesStep expression r' first) :=
    inStep_compositional.clausesStep (fun j _ => expression_inStep j) hr first
  refine .of_step hstep (fun m d hd b first t ht => ?_)
    fun r r' hr => (hr first s ⟨hs, Nat.le_refl _⟩).1
  have hiterate := iterate_related (fun j _ => hstep j) (Nat.lt_succ_self t.remaining)
    (Nat.lt_of_le_of_lt ht.2 hd) (fun _ => stuck) b first
  rw [← clausesWithin_eq] at hiterate
  exact hiterate t ⟨ht.1, Nat.le_refl _⟩

theorem expression_endsWithin : EndsWithin s.remaining (· s) level expression :=
  .of_step (fun _ _ _ hr => inStep_compositional.level hr)
    (fun _ _ hd b => expression_inStep_iterate hd b)
    fun _ _ hr => (hr s ⟨hs, Nat.le_refl _⟩).1

theorem program_ends : s.Ends 1 (program s) := by
  have hleft : s.HasLeft s.remaining := ⟨hs, Nat.le_refl _⟩
  unfold program
  cases h : expression s with
  | ok e s' =>
    obtain ⟨-, ht⟩ := (expression_inStep _).ok hleft h
    have hfails : s.Onward 0 s' := ht.mono (Nat.zero_le _)
    dsimp only
    split
    · split
      · split <;> exact hfails
      · exact hfails
    · exact ht
  | error e s' =>
    obtain ⟨-, ht⟩ := (expression_inStep _).error hleft h
    dsimp only
    split <;> exact ht

end

/-- Wherever it begins, each rule takes a token if it succeeds, and does not go back if it fails. So
the nesting of expressions in it ends, and so do repetitions of it, the clauses of a pattern and the
nesting of formals, each after no more steps than there are tokens left. -/
theorem rules_progress_and_end {s : ReadState} (hs : s.index ≤ s.tokens.size) :
    (∀ rule ∈ [expression, pattern expression, formal expression],
      s.Ends 1 (rule s) ∧ s.Ends 0 (many rule s) ∧ s.Ends 1 (many1 rule s) ∧
        EndsWithin s.remaining (· s) (manyStep rule) (many rule)) ∧
      EndsWithin s.remaining (· s) level expression ∧
      (∀ rule ∈ [pattern, formal], ∀ d, s.remaining ≤ d → ∀ b,
        rule (level^[d] b) s = rule expression s) ∧
      EndsWithin s.remaining (· s) (simpleStep expression) (simple expression) ∧
      (∀ first, EndsWithin s.remaining (· first s) (clausesStep expression)
        fun first => within (clausesWithin expression first)) ∧
      s.Ends 1 (program s) := by
  have hleft : s.HasLeft s.remaining := ⟨hs, Nat.le_refl _⟩
  have hself (n m : Nat) (_ : m < n) : InStep m 1 expression expression := expression_inStep m
  have hdeep (d : Nat) (hd : s.remaining ≤ d) (b : Reader Expr) (m : Nat) (hm : m < s.remaining) :
      InStep m 1 (level^[d] b) expression :=
    (expression_inStep_iterate (Nat.lt_of_lt_of_le hm hd) b).symm
  refine ⟨?_, expression_endsWithin hs, ?_, simple_endsWithin hs, clauses_endsWithin hs,
    program_ends hs⟩
  · have hrules : ∀ rule ∈ [expression, pattern expression, formal expression],
        ∀ n, InStep n 1 rule rule := by
      simpa using ⟨expression_inStep, fun n => inStep_compositional.pattern (hself n),
        fun n => inStep_compositional.formal (b := true) (hself n)⟩
    intro rule hrule
    have hrule := hrules rule hrule
    exact ⟨(hrule _ s hleft).2, (inStep_compositional.many (b := true) (hrule _) s hleft).2,
      (inStep_compositional.many1 (b := true) (hrule _) s hleft).2,
      many_endsWithin hs hrule⟩
  · rw [List.forall_mem_cons, List.forall_mem_singleton]
    refine ⟨fun d hd b => ?_, fun d hd b => ?_⟩
    · exact (inStep_compositional.pattern (hdeep d hd b) s hleft).1
    · exact (inStep_compositional.formal (b := true) (hdeep d hd b) s hleft).1

def unclosed : ReadState :=
  let lexemes : List Lexeme := [.lparen, .lbrace, .ident "x", .colon, .lparen]
  (ReadState.ofTokens (lexemes.map fun lexeme => ⟨lexeme, ⟨0, 0⟩, ⟨0, 0⟩, ""⟩)).advance

/-- The condition is given up, and reading fails between where it began and the end. -/
theorem rules_progress_and_end_unclosed :
    ∃ e s', expression unclosed = .error e s' ∧ unclosed.index ≤ s'.index ∧ s'.index ≤ 5 := by
  have hfails : (expression.run' unclosed).isNone = true := by decide +kernel
  have hends : unclosed.Ends 1 (expression unclosed) :=
    ((rules_progress_and_end (s := unclosed) (by decide)).1 expression (by simp)).1
  cases h : expression unclosed with
  | ok e s' =>
    delta EStateM.run' EStateM.run at hfails
    rw [h] at hfails
    cases hfails
  | error e s' =>
    rw [h] at hends
    exact ⟨e, s', rfl, hends.2⟩

end Reader

end ClauseLang

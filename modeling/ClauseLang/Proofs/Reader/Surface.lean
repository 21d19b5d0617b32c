import ClauseLang.Proofs.Reader.Check

/-!
Which errors of the check on clauses come to the surface. From a clause body or a binding the error is
handed on. Where an expression is an item of many, or the condition of a guard, its failure only ends
the repetition or the formal: reading goes on before the expression, and fails there with something
else.
-/

namespace ClauseLang.Reader

variable {α β : Type}

/-- On these lexemes the reader fails, and with such an error. -/
def FailsWith (p : Reader α) (E : ParseError → Prop) (ts : List Lexeme) : Prop :=
  ∀ s : ReadState, s.ahead = ts → ∃ e s', p s = .error e s' ∧ E e

namespace FailsWith

variable {p : Reader α} {E F : ParseError → Prop} {ts us : List Lexeme}

theorem fails (h : FailsWith p E ts) : Fails p (· = ts) := by
  intro s hs
  obtain ⟨e, s', hp, -⟩ := h s hs
  exact ⟨e, s', hp⟩

theorem of_fails {X : List Lexeme → Prop} (h : Fails p X) (hx : X ts) :
    FailsWith p (fun _ => True) ts := by
  rintro s rfl
  obtain ⟨e, s', hp⟩ := h s hx
  exact ⟨e, s', hp, trivial⟩

theorem bind {f : α → Reader β} (h : FailsWith p E ts) : FailsWith (p >>= f) E ts := by
  intro s hs
  obtain ⟨e, s', hp, he⟩ := h s hs
  exact ⟨e, s', bind_eq_error hp, he⟩

theorem after {P : Phrase α} {a : α} {f : α → Reader β} (hp : Complete p P) (ha : P ts a us)
    (h : FailsWith (f a) E us) : FailsWith (p >>= f) E ts := by
  rintro s rfl
  obtain ⟨t, ht, hrest⟩ := hp s a us ha
  rw [bind_eq_ok ht]
  exact h t hrest

theorem after_word {l : Lexeme} {f : Token → Reader β} (h : ∀ token, FailsWith (f token) E us) :
    FailsWith (word l >>= f) E (l :: us) := by
  intro s hs
  obtain ⟨token, hp, hl, rfl⟩ := ReadState.peek?_of_ahead_eq_cons hs
  have hw : word l s = .ok token s.advance := by simp [word, accept, hp, hl]
  rw [bind_eq_ok hw]
  exact h token _ rfl

theorem word {l : Lexeme} (h : ∀ us, ts ≠ l :: us) :
    FailsWith (Reader.word l) (·.expected ≠ []) ts := by
  rintro s rfl
  unfold Reader.word accept
  cases hp : s.peek? with
  | none => exact ⟨_, _, rfl, List.cons_ne_nil _ _⟩
  | some token =>
    have hl : token.lexeme ≠ l := fun hl =>
      h s.advance.ahead (by rw [ReadState.ahead_of_peek?_eq_some hp, hl])
    simp only [if_neg hl]
    exact ⟨_, _, rfl, List.cons_ne_nil _ _⟩

theorem named {name : String} (h : FailsWith p E ts) :
    FailsWith (Reader.named name p) (·.expected ≠ []) ts := by
  intro s hs
  obtain ⟨e, s', hp, -⟩ := h s hs
  unfold Reader.named
  rw [hp]
  exact ⟨_, _, rfl, List.cons_ne_nil _ _⟩

theorem within {f : Nat → Reader α} (h : ∀ n, ts.length < n → FailsWith (f n) E ts) :
    FailsWith (Reader.within f) E ts := by
  rintro s rfl
  refine h (s.remaining + 1) ?_ s rfl
  rw [s.length_ahead]
  exact Nat.lt_succ_self _

end FailsWith

/-- A formal as it is read where no expression is read at `ts`: a name whose guard is there stands
alone. -/
inductive Unguarded (P : Phrase Expr) (ts : List Lexeme) : Phrase Expr
  | formal {us rest : List Lexeme} {e : Expr} :
    Formal P us e rest → Lacks Lexeme.opensGuard rest → Unguarded P ts us e rest
  | name (x : String) {mark : Lexeme} :
    mark.opensGuard → Unguarded P ts (.ident x :: mark :: ts) (.identifier x) (mark :: ts)

theorem Unguarded.consumes {P : Phrase Expr} (hP : Consumes P) {ts : List Lexeme} :
    Consumes (Unguarded P ts) := by
  intro us e rest h
  cases h with
  | formal h _ => exact Formal.consumes hP h
  | name x _ => exact Nat.lt_succ_self _

theorem Many.unguarded {P : Phrase Expr} {us ts : List Lexeme} {row : List Expr} {x : String}
    {mark : Lexeme} (hmark : mark.opensGuard)
    (h : Many (Formal P) us row (.ident x :: mark :: ts)) :
    Many (Unguarded P ts) us (row ++ [.identifier x]) (mark :: ts) := by
  have hlacks := (h.lacks_opensGuard (lacks_cons rfl)).2
  clear h
  generalize hrest : Lexeme.ident x :: mark :: ts = rest at hlacks
  induction hlacks with
  | nil =>
    subst hrest
    exact .cons (.name x hmark) .nil
  | cons hfirst _ ih => exact .cons (.formal hfirst.1 hfirst.2) (ih hrest)

theorem bind_congr_at {p q : Reader α} {f : α → Reader β} {s t : ReadState} (h : p s = q t) :
    (p >>= f) s = (q >>= f) t := by
  change EStateM.bind p f s = EStateM.bind q f t
  unfold EStateM.bind
  rw [h]

theorem clausesWithin_cons {expr : Reader Expr} {first : Option Nat} {raw : RawClause}
    {raws : List RawClause} {s t u : ReadState} {l : Lexeme} {us : List Lexeme} {k k' : Nat}
    (ha : s.ahead = l :: us) (hl : l.opensFormal = true) (hraw : plainClause expr s = .ok raw t)
    (h : clausesWithin expr (first.or (some raw.row.length)) k t =
      ((raws ++ ·) <$> clausesWithin expr (firstRow (first.or (some raw.row.length)) raws) k') u) :
    clausesWithin expr first (k + 1) s =
      ((raw :: raws ++ ·) <$> clausesWithin expr (firstRow first (raw :: raws)) k') u := by
  rw [clausesWithin_opensFormal ha hl, ← firstRow_cons]
  refine (bind_eq_ok hraw).trans ((bind_congr_at h).trans ?_)
  rw [bind_map_left]
  exact congrFun (bind_pure_comp _ _) u

section

variable {n : Nat} {expr : Reader Expr} (hs : Sound expr (DerivesWithin n))
  (hc : Complete expr (DerivesWithin n)) (hf : Fails expr (Lacks Lexeme.opens))
include hs hc hf

/-- Reading clauses comes by all that are written. -/
theorem clausesWithin_run {first : Option Nat} {ts us : List Lexeme} {raws : List RawClause}
    (h : Written (DerivesWithin n) first ts raws us) {s : ReadState} (ha : s.ahead = ts) {k : Nat}
    (hk : ts.length < k) : ∃ t k', t.ahead = us ∧ us.length < k' ∧
      clausesWithin expr first k s =
        ((raws ++ ·) <$> clausesWithin expr (firstRow first raws) k') t := by
  induction h generalizing s k with
  | @nil ts first =>
    refine ⟨s, k, ha, hk, ?_⟩
    rw [firstRow, List.head?_nil, Option.map_none, Option.or_none]
    change _ = (id <$> clausesWithin expr first k) s
    rw [id_map]
  | @default ts us rest arity body raws hb _ ih =>
    obtain ⟨k, rfl⟩ : ∃ j, k = j + 1 := ⟨k - 1, by omega⟩
    obtain ⟨t, ht, hahead⟩ := defaultClause_complete hc arity s _ _ ⟨_, body, ha, hb, rfl⟩
    have hlt := DerivesWithin.consumes hb
    rw [List.length_cons] at hk
    obtain ⟨t', k', ht', hk', heq⟩ := ih hahead (k := k) (by omega)
    refine ⟨t', k', ht', hk', ?_⟩
    rw [clausesWithin, nextLexeme?_bind, ha]
    refine (bind_eq_ok ht).trans ((bind_congr_at heq).trans ?_)
    rw [bind_map_left]
    exact congrFun (bind_pure_comp _ _) t'
  | plain hr hb _ ih =>
    obtain ⟨k, rfl⟩ : ∃ j, k = j + 1 := ⟨k - 1, by omega⟩
    have hplain : Plain (DerivesWithin n) _ (.mk _ _) _ := ⟨hr, hb⟩
    have hlt := Plain.consumes DerivesWithin.consumes hplain
    obtain ⟨l, ws, rfl, hl⟩ := hr.opensFormal
    obtain ⟨t, ht, hahead⟩ := plainClause_complete hs hc hf s _ _ ⟨_, ha ▸ hplain, rfl⟩
    obtain ⟨t', k', ht', hk', heq⟩ := ih hahead (k := k) (by omega)
    exact ⟨t', k', ht', hk', clausesWithin_cons ha hl ht heq⟩
  | bare hr hgo _ ih =>
    obtain ⟨k, rfl⟩ : ∃ j, k = j + 1 := ⟨k - 1, by omega⟩
    have hlt := Row.consumes DerivesWithin.consumes hr
    obtain ⟨l, ws, rfl, hl⟩ := id hr.opensFormal
    obtain ⟨t, ht, hahead⟩ := plainClause_complete_bare hs hc hf s _ _ ⟨_, rfl, ha ▸ hr, hgo⟩
    obtain ⟨t', k', ht', hk', heq⟩ := ih hahead (k := k) (by omega)
    exact ⟨t', k', ht', hk', clausesWithin_cons ha hl ht heq⟩

/-- What goes wrong after the clauses so far goes wrong with the pattern. -/
theorem pattern_fails_after {ts us : List Lexeme} {raws : List RawClause} {E : ParseError → Prop}
    (hw : Written (DerivesWithin n) none ts raws us)
    (h : ∀ k, us.length < k → FailsWith (clausesWithin expr (firstRow none raws) k) E us) :
    FailsWith (pattern expr) E (.lbrace :: ts) := by
  refine FailsWith.after_word fun brace => FailsWith.bind (FailsWith.within fun k hk s ha => ?_)
  obtain ⟨t, k', ht, hk', heq⟩ := clausesWithin_run hs hc hf hw ha hk
  obtain ⟨e, t', he, hE⟩ := h k' hk' t ht
  refine ⟨e, t', ?_, hE⟩
  rw [heq]
  change EStateM.map _ _ t = _
  unfold EStateM.map
  rw [he]

theorem clauses_complete_written : Complete (within (clausesWithin expr none)) fun ts raws rest =>
    Written (DerivesWithin n) none ts raws rest ∧ ∃ us, rest = .rbrace :: us := by
  rintro s raws _ ⟨hw, us, rfl⟩
  obtain ⟨t, k, ht, hk, heq⟩ := clausesWithin_run hs hc hf hw rfl (k := s.remaining + 1) (by
    rw [s.length_ahead]
    exact Nat.lt_succ_self _)
  obtain ⟨k, rfl⟩ : ∃ j, k = j + 1 := ⟨k - 1, by omega⟩
  refine ⟨t, heq.trans ?_, ht⟩
  have hend : clausesWithin expr (firstRow none raws) (k + 1) t = .ok [] t := by
    rw [clausesWithin, nextLexeme?_bind, ht]
    rfl
  change EStateM.map _ _ t = _
  unfold EStateM.map
  rw [hend]
  simp only [List.append_nil]

theorem Flawed.pattern_fails {problem : Problem} {ts : List Lexeme} (h : Flawed problem ts)
    (hn : ts.length ≤ n) :
    FailsWith (pattern expr) (fun e => e.problem = problem ∧ e.expected = []) ts := by
  cases h with
  | defaultFirst ts =>
    refine pattern_fails_after hs hc hf .nil fun k hk => ?_
    obtain ⟨k, rfl⟩ : ∃ j, k = j + 1 := ⟨k - 1, by omega⟩
    intro s ha
    rw [clausesWithin, nextLexeme?_bind, ha]
    exact ⟨_, s, rfl, rfl, rfl⟩
  | @finished ts rest raws _ hw hproblem =>
    have hwithin : Written (DerivesWithin n) none ts raws (.rbrace :: rest) :=
      hw.mono Derives.consumes (Derives.below n) hn
    refine FailsWith.after_word fun brace => FailsWith.after (clauses_complete_written hs hc hf)
      ⟨hwithin, rest, rfl⟩ (FailsWith.after_word fun _ => ?_)
    intro s _
    rw [hproblem]
    exact ⟨_, s, rfl, rfl, rfl⟩

/-- The body of a clause is read, and hands its error on. -/
theorem clauseBody_fails {ts us vs : List Lexeme} {raws : List RawClause} {row : List Expr}
    {E : ParseError → Prop} (hw : Written (DerivesWithin n) none ts raws us)
    (hr : Row (DerivesWithin n) us row (.arrow :: vs)) (h : FailsWith expr E vs) :
    FailsWith (pattern expr) E (.lbrace :: ts) := by
  refine pattern_fails_after hs hc hf hw fun k hk => ?_
  obtain ⟨k, rfl⟩ : ∃ j, k = j + 1 := ⟨k - 1, by omega⟩
  have hplain : FailsWith (plainClause expr) E us := by
    intro s ha
    obtain ⟨t, ht, hahead⟩ := row_complete hs hc hf s row _ ⟨ha ▸ hr, lacks_cons rfl, lacks_cons rfl⟩
    unfold plainClause
    rw [bind_eq_ok ht, nextLexeme?_bind, hahead]
    exact FailsWith.after_word (fun _ => FailsWith.bind h) t hahead
  obtain ⟨l, ws, rfl, hl⟩ := hr.opensFormal
  intro s ha
  rw [clausesWithin_opensFormal ha hl]
  exact hplain.bind s ha

theorem defaultBody_fails {ts us : List Lexeme} {raws : List RawClause} {E : ParseError → Prop}
    (hw : Written (DerivesWithin n) none ts raws (.fatArrow :: us)) (hne : raws ≠ [])
    (h : FailsWith expr E us) : FailsWith (pattern expr) E (.lbrace :: ts) := by
  refine pattern_fails_after hs hc hf hw fun k hk => ?_
  obtain ⟨k, rfl⟩ : ∃ j, k = j + 1 := ⟨k - 1, by omega⟩
  obtain ⟨arity, harity⟩ := Option.ne_none_iff_exists'.1 (mt firstRow_none_eq_none_iff.1 hne)
  intro s ha
  rw [clausesWithin, nextLexeme?_bind, ha, harity]
  exact (FailsWith.after_word fun _ => h.bind).bind s ha

omit hs hc hf in
theorem letValue_fails (x : String) {ts : List Lexeme} {E : ParseError → Prop}
    (h : FailsWith expr E ts) :
    FailsWith (letIn expr) E (.letWord :: .ident x :: .equals :: ts) :=
  FailsWith.after_word fun _ => FailsWith.after (ident_complete.named _) rfl
    (FailsWith.after_word fun _ => h.bind)

omit hs hf in
theorem letBody_fails (x : String) {ts us : List Lexeme} {value : Expr} {E : ParseError → Prop}
    (hv : DerivesWithin n ts value us) (h : FailsWith expr E us) :
    FailsWith (letIn expr) E (.letWord :: .ident x :: .equals :: ts) :=
  FailsWith.after_word fun _ => FailsWith.after (ident_complete.named _) rfl
    (FailsWith.after_word fun _ => FailsWith.after hc hv h.bind)

omit hf in
/-- Where an item fails, the repetition ends, and the closing mark is missed. -/
theorem items_fail {close : Lexeme} {ts us : List Lexeme} {items : List Expr} {E : ParseError → Prop}
    (f : List Expr → Token → Reader Expr) (hm : Many (DerivesWithin n) ts items us)
    (hclose : ∀ vs, us ≠ close :: vs) (h : FailsWith expr E us) :
    FailsWith (many expr >>= fun items => word close >>= f items) (·.expected ≠ []) ts :=
  FailsWith.after (Complete.many hs hc h.fails DerivesWithin.consumes) ⟨hm, rfl⟩
    (FailsWith.word hclose).bind

omit hc hf in
/-- The condition of a guard fails, and the guard is not taken for one. -/
theorem guardedName_unguarded {x : String} {mark : Lexeme} (hmark : mark.opensGuard)
    {ts : List Lexeme} {E : ParseError → Prop} (h : FailsWith expr E ts) :
    Complete (guardedName expr) fun us e rest =>
      us = .ident x :: mark :: ts ∧ e = .identifier x ∧ rest = mark :: ts := by
  have hpart (l : Lexeme) (constant : Bool) :
      Fails (do let _ ← word l; return (← expr, constant)) (· = mark :: ts) := by
    by_cases hl : l = mark
    · subst hl
      exact (FailsWith.after_word (fun _ => h.bind)).fails
    · refine Fails.bind (Fails.word.mono ?_)
      rintro _ rfl us hus
      cases hus
      exact hl rfl
  have hcondition : Fails (condition expr) (· = mark :: ts) :=
    Fails.either ((Sound.word _).bind fun _ => hs.bind fun e => Sound.pure (e, false)) (hpart _ _)
      (hpart _ _)
  refine (ident_complete.bind fun x => (Complete.attempt_none (condition_sound hs)
    hcondition).bind (R := fun r ts e rest => r = none ∧ e = .identifier x ∧ rest = ts) ?_).mono ?_
  · rintro _ s _ _ ⟨rfl, rfl, rfl⟩
    exact ⟨s, rfl, rfl⟩
  · rintro us e rest ⟨rfl, rfl, rfl⟩
    exact ⟨x, _, rfl, none, _, ⟨rfl, rfl, rfl⟩, rfl, rfl, rfl⟩

theorem formal_unguarded {ts : List Lexeme} {E : ParseError → Prop} (h : FailsWith expr E ts) :
    Complete (formal expr) (Unguarded (DerivesWithin n) ts) := by
  intro s e rest h'
  generalize ha : s.ahead = us at h'
  cases h' with
  | formal hformal hlacks => exact formal_complete hs hc hf s e rest ⟨ha ▸ hformal, hlacks⟩
  | name x hmark =>
    unfold formal
    rw [nextLexeme?_bind, ha]
    exact guardedName_unguarded hs hmark h s _ _ ⟨ha, rfl, rfl⟩

/-- A row whose last name has a guard that fails is read up to that guard. -/
theorem row_unguarded {ts : List Lexeme} {E : ParseError → Prop} (h : FailsWith expr E ts) :
    Complete (named "match" (many1 (formal expr))) fun us row rest =>
      row ≠ [] ∧ Many (Unguarded (DerivesWithin n) ts) us row rest ∧
        Lacks Lexeme.opensFormal rest := by
  have hformal := formal_unguarded hs hc hf h
  refine ((hformal.bind fun first => (Complete.many (formal_sound hs) hformal formal_fails
    (Unguarded.consumes DerivesWithin.consumes)).bind fun others =>
      Complete.pure (first :: others)).named _).mono ?_
  rintro us row rest ⟨hne, hm, hlacks⟩
  cases hm with
  | nil => exact absurd rfl hne
  | cons hfirst hothers => exact ⟨_, _, hfirst, _, _, ⟨hothers, hlacks⟩, rfl, rfl⟩

theorem plainClause_unguarded {mark : Lexeme} (hmark : mark.opensGuard) {ts : List Lexeme}
    {E : ParseError → Prop} (h : FailsWith expr E ts) :
    Complete (plainClause expr) fun us raw rest => ∃ row, raw = ⟨row, none⟩ ∧ row ≠ [] ∧
      rest = mark :: ts ∧ Many (Unguarded (DerivesWithin n) ts) us row rest := by
  rintro s _ _ ⟨row, rfl, hne, rfl, hm⟩
  have hlacks : Lacks Lexeme.opensFormal (mark :: ts) :=
    lacks_cons (by cases mark <;> first | rfl | cases hmark)
  obtain ⟨t, ht, hahead⟩ := row_unguarded hs hc hf h s row _ ⟨hne, hm, hlacks⟩
  refine ⟨t, ?_, hahead⟩
  unfold plainClause
  rw [bind_eq_ok ht, nextLexeme?_bind, hahead]
  cases mark <;> first | rfl | cases hmark

omit hs hc hf in
theorem clausesWithin_fails {mark : Lexeme} (hmark : mark.opensGuard) (ts : List Lexeme)
    (first : Option Nat) (k : Nat) :
    FailsWith (clausesWithin expr first (k + 1)) (·.expected ≠ []) (mark :: ts) := by
  have hlacks : Lacks Lexeme.opensFormal (mark :: ts) :=
    lacks_cons (by cases mark <;> first | rfl | cases hmark)
  have hplain : FailsWith (plainClause expr) (·.expected ≠ []) (mark :: ts) :=
    FailsWith.bind (FailsWith.named (FailsWith.of_fails (Fails.bind formal_fails) hlacks))
  intro s ha
  rw [clausesWithin, nextLexeme?_bind, ha]
  cases mark <;> first | exact hplain.bind s ha | cases hmark

theorem guard_fails {x : String} {mark : Lexeme} (hmark : mark.opensGuard)
    {ts us vs : List Lexeme} {raws : List RawClause} {row : List Expr} {E : ParseError → Prop}
    (hw : Written (DerivesWithin n) none ts raws us)
    (hm : Many (Formal (DerivesWithin n)) us row (.ident x :: mark :: vs))
    (h : FailsWith expr E vs) : FailsWith (pattern expr) (·.expected ≠ []) (.lbrace :: ts) := by
  refine pattern_fails_after hs hc hf hw fun k hk s ha => ?_
  obtain ⟨l, ws, rfl, hl⟩ : ∃ l ws, us = l :: ws ∧ l.opensFormal := by
    cases hm with
    | nil => exact ⟨_, _, rfl, rfl⟩
    | cons hfirst hothers => exact Row.opensFormal (.mk hfirst hothers)
  obtain ⟨k, rfl⟩ : ∃ j, k = j + 2 := ⟨k - 2, by
    have := hm.length_le (Formal.consumes DerivesWithin.consumes)
    simp only [List.length_cons] at *
    omega⟩
  rw [clausesWithin_opensFormal ha hl]
  exact FailsWith.after (plainClause_unguarded hs hc hf hmark h)
    ⟨_, rfl, by simp, rfl, hm.unguarded hmark⟩
    (FailsWith.bind (clausesWithin_fails hmark vs _ k)) s ha

end

/-! ### Along a path -/

theorem Flawed.exists_eq {problem : Problem} {ts : List Lexeme} (h : Flawed problem ts) :
    ∃ us, ts = .lbrace :: us := by
  cases h with
  | defaultFirst => exact ⟨_, rfl⟩
  | finished => exact ⟨_, rfl⟩

/-- An expression with a flawed brace in it begins with a word or an opening mark. -/
theorem Leads.opens {problem : Problem} {path : List Place} {ts us : List Lexeme}
    (h : Leads path ts us) (hflawed : Flawed problem us) : ∃ l vs, ts = l :: vs ∧ l.opens := by
  cases h with
  | here =>
    obtain ⟨us, rfl⟩ := hflawed.exists_eq
    exact ⟨_, us, rfl, rfl⟩
  | item | element | guard | clauseBody | defaultBody | letValue | letBody => exact ⟨_, _, rfl, rfl⟩

/-- What becomes of an error of the check at the end of a path. -/
def Surfaces (problem : Problem) (path : List Place) (e : ParseError) : Prop :=
  if path.all Place.isFinal then e.problem = problem ∧ e.expected = [] else e.expected ≠ []

theorem surfaces_cons {problem : Problem} {place : Place} (h : place.isFinal) (path : List Place) :
    Surfaces problem (place :: path) = Surfaces problem path := by
  funext e
  rw [Surfaces, Surfaces, List.all_cons, h, Bool.true_and]

theorem surfaces_cons_of_not {problem : Problem} {place : Place} (h : place.isFinal = false)
    (path : List Place) : Surfaces problem (place :: path) = (·.expected ≠ []) := by
  funext e
  rw [Surfaces, List.all_cons, h, Bool.false_and, if_neg Bool.false_ne_true]

theorem FailsWith.level {expr : Reader Expr} {E : ParseError → Prop} {l : Lexeme}
    {ts : List Lexeme} (h : FailsWith (match l with
      | .letWord => letIn expr
      | .lbrace => pattern expr
      | .lparen => application expr
      | .lbracket => list expr
      | _ => atom) E (l :: ts)) : FailsWith (level expr) E (l :: ts) := by
  intro s ha
  have hs := h s ha
  unfold Reader.level
  rw [nextLexeme?_bind, ha]
  cases l <;> exact hs

/-- An expression that leads to a flawed brace is not read. The error is handed on from final places,
and from any other the reader comes to an error of its own. -/
theorem expressionWithin_surfaces {problem : Problem} {path : List Place} {ts us : List Lexeme}
    (h : Leads path ts us) (hflawed : Flawed problem us) (n : Nat) (hn : ts.length < n) :
    FailsWith (expressionWithin n) (Surfaces problem path) ts := by
  induction h generalizing n with
  | here =>
    obtain ⟨n, rfl⟩ : ∃ k, n = k + 1 := ⟨n - 1, by omega⟩
    obtain ⟨us, rfl⟩ := hflawed.exists_eq
    exact FailsWith.level (hflawed.pattern_fails (expressionWithin_sound n)
      (expressionWithin_complete n) (expressionWithin_fails n) (Nat.le_of_lt_succ hn))
  | @item _ _ _ _ _ hm hleads ih | @element _ _ _ _ _ hm hleads ih =>
    obtain ⟨n, rfl⟩ : ∃ k, n = k + 1 := ⟨n - 1, by omega⟩
    rw [List.length_cons] at hn
    have hle := hm.length_le Derives.consumes
    obtain ⟨l, vs, rfl, hl⟩ := hleads.opens hflawed
    rw [surfaces_cons_of_not rfl]
    refine FailsWith.level (FailsWith.after_word fun _ => items_fail (expressionWithin_sound n)
      (expressionWithin_complete n) _ (hm.mono Derives.consumes (Derives.below n)
        (by omega)) ?_ (ih hflawed n (by omega)))
    rintro _ ⟨rfl⟩
    cases hl
  | guard hw hm hmark hleads ih =>
    obtain ⟨n, rfl⟩ : ∃ k, n = k + 1 := ⟨n - 1, by omega⟩
    rw [List.length_cons] at hn
    have hle := hw.length_le Derives.consumes
    have hle' := hm.length_le (Formal.consumes Derives.consumes)
    simp only [List.length_cons] at hle'
    rw [surfaces_cons_of_not rfl]
    exact FailsWith.level (guard_fails (expressionWithin_sound n) (expressionWithin_complete n)
      (expressionWithin_fails n) hmark
      (hw.mono Derives.consumes (Derives.below n) (by omega))
      (hm.mono (Formal.consumes Derives.consumes)
        (Formal.mono Derives.consumes (Derives.below n)) (by omega))
      (ih hflawed n (by omega)))
  | clauseBody hw hr hleads ih =>
    obtain ⟨n, rfl⟩ : ∃ k, n = k + 1 := ⟨n - 1, by omega⟩
    rw [List.length_cons] at hn
    have hle := hw.length_le Derives.consumes
    have hlt := Row.consumes Derives.consumes hr
    rw [List.length_cons] at hlt
    rw [surfaces_cons rfl]
    exact FailsWith.level (clauseBody_fails (expressionWithin_sound n)
      (expressionWithin_complete n) (expressionWithin_fails n)
      (hw.mono Derives.consumes (Derives.below n) (by omega))
      (Row.mono Derives.consumes (Derives.below n) (by omega) hr)
      (ih hflawed n (by omega)))
  | defaultBody hw hne hleads ih =>
    obtain ⟨n, rfl⟩ : ∃ k, n = k + 1 := ⟨n - 1, by omega⟩
    rw [List.length_cons] at hn
    have hle := hw.length_le Derives.consumes
    rw [List.length_cons] at hle
    rw [surfaces_cons rfl]
    exact FailsWith.level (defaultBody_fails (expressionWithin_sound n)
      (expressionWithin_complete n) (expressionWithin_fails n)
      (hw.mono Derives.consumes (Derives.below n) (by omega)) hne
      (ih hflawed n (by omega)))
  | letValue x hleads ih =>
    obtain ⟨n, rfl⟩ : ∃ k, n = k + 1 := ⟨n - 1, by omega⟩
    simp only [List.length_cons] at hn
    rw [surfaces_cons rfl]
    exact FailsWith.level (letValue_fails x (ih hflawed n (by omega)))
  | letBody x hv hleads ih =>
    obtain ⟨n, rfl⟩ : ∃ k, n = k + 1 := ⟨n - 1, by omega⟩
    simp only [List.length_cons] at hn
    have hlt := Derives.consumes hv
    rw [surfaces_cons rfl]
    exact FailsWith.level (letBody_fails (expressionWithin_complete n) x
      (hv.within (by omega)) (ih hflawed n (by omega)))

theorem unchecked_ofTokens (tokens : List Token) : (ReadState.ofTokens tokens).Unchecked :=
  fun _ h => nomatch h

/-- A program is refused with an error of the check only for a flawed brace in final places. -/
theorem refused_of_program {s s' : ReadState} {e : ParseError} (hu : s.Unchecked)
    (h : program s = .error e s') (hcheck : e.problem.isCheck) : Refused e.problem s.ahead := by
  have hfurthest {t : ReadState} {known : Nat × ParseError} (ht : t.Unchecked)
      (hknown : t.furthest = some known) : known.2.problem.isCheck = false := ht known hknown
  unfold program at h
  cases hp : expression s with
  | ok a t =>
    have ht := expression_raises.ok hu hp
    rw [hp] at h
    dsimp only at h
    split at h
    · split at h
      next index known hknown =>
        have hk := hfurthest ht hknown
        split at h
        · cases h
          simp [hk] at hcheck
        · cases h
          rw [ReadState.problem_errorHere] at hcheck
          cases hcheck
      · cases h
        rw [ReadState.problem_errorHere] at hcheck
        cases hcheck
    · cases h
  | error e₀ t =>
    obtain ⟨ht, he⟩ := expression_raises.error hu hp
    rw [hp] at h
    dsimp only at h
    split at h
    · cases h
      exact (he hcheck).2
    next hexpected =>
      cases hknown : t.furthest with
      | none =>
        rw [hknown] at h
        cases h
        rw [(he hcheck).1] at hexpected
        exact absurd rfl hexpected
      | some known =>
        rw [hknown] at h
        cases h
        have hk : known.2.problem.isCheck = false := hfurthest ht hknown
        simp [hk] at hcheck

/-- What is reported of a program that leads to a flawed brace. -/
theorem program_surfaces {problem : Problem} {path : List Place} {s : ReadState}
    {us : List Lexeme} (hu : s.Unchecked) (h : Leads path s.ahead us)
    (hflawed : Flawed problem us) : ∃ e s', program s = .error e s' ∧
      if path.all Place.isFinal then e.problem = problem else e.problem.isCheck = false := by
  obtain ⟨e, s', hp, he⟩ : ∃ e s', expression s = .error e s' ∧ Surfaces problem path e :=
    FailsWith.within (expressionWithin_surfaces h hflawed) s rfl
  obtain ⟨hu', hcheck⟩ := expression_raises.error hu hp
  unfold program
  rw [hp]
  dsimp only
  unfold Surfaces at he
  split at he
  next hfinal =>
    rw [if_pos (by rw [he.2]; rfl)]
    exact ⟨e, s', rfl, by rw [if_pos hfinal]; exact he.1⟩
  next hfinal =>
    have hproblem : e.problem.isCheck = false := by
      rw [← Bool.not_eq_true]
      exact fun h => he (hcheck h).1
    rw [if_neg (by simpa using he)]
    refine ⟨_, s', rfl, ?_⟩
    rw [if_neg hfinal]
    cases hknown : s'.furthest with
    | none => exact hproblem
    | some known => exact hu' known hknown

end ClauseLang.Reader

namespace ClauseLang

open Reader

/-- A text whose clauses are refused is refused for the same reason wherever it stands as the body of
a clause, the value of a binding or what bindings are for. If on the way there it stands in an item or
in a guard, something else is reported. -/
theorem check_error_surfaces {source whole : String} {tokens tokens' : List Token}
    {after : List Lexeme} {path : List Place} {e : ParseError}
    (hsource : scan (Source.stripComments source) = .ok tokens)
    (hwhole : scan (Source.stripComments whole) = .ok tokens')
    (hpath : Leads path (tokens'.map Token.lexeme) (tokens.map Token.lexeme ++ after))
    (h : parse source = .error e) (hcheck : e.problem.isCheck) :
    ∃ e', parse whole = .error e' ∧
      if path.all Place.isFinal then e'.problem = e.problem else e'.problem.isCheck = false := by
  have hahead (tokens : List Token) : (ReadState.ofTokens tokens).ahead = tokens.map Token.lexeme := by
    simp [ReadState.ahead, ReadState.ofTokens]
  rw [parse, hsource] at h
  dsimp only [ofTokens] at h
  split at h
  next => cases h
  next e₀ s' hp =>
    cases h
    obtain ⟨inner, us, hinner, hleads, hflawed⟩ :=
      refused_of_program (unchecked_ofTokens tokens) hp hcheck
    rw [hahead] at hleads
    have hall := hpath.trans (hleads.append after)
    rw [← hahead tokens'] at hall
    obtain ⟨e', t, hwholeError, he'⟩ :=
      program_surfaces (unchecked_ofTokens tokens') hall (hflawed.append after)
    refine ⟨e', ?_, ?_⟩
    · rw [parse, hwhole]
      dsimp only [ofTokens]
      rw [hwholeError]
    · rwa [List.all_append, hinner, Bool.and_true] at he'

def problem? (source : String) : Option Problem :=
  match parse source with
  | .ok _ => none
  | .error e => some e.problem

theorem exists_error_of_problem? {source : String} {problem : Problem}
    (h : problem? source = some problem) : ∃ e, parse source = .error e ∧ e.problem = problem := by
  unfold problem? at h
  cases hp : parse source with
  | ok e => rw [hp] at h; cases h
  | error e => rw [hp] at h; cases h; exact ⟨e, rfl, rfl⟩

theorem exists_tokens {source : String} {lexemes : List Lexeme}
    (h : (scan (Source.stripComments source)).toOption.map (·.map Token.lexeme) = some lexemes) :
    ∃ tokens, scan (Source.stripComments source) = .ok tokens ∧ tokens.map Token.lexeme = lexemes := by
  obtain ⟨tokens, htokens, hlexemes⟩ := Option.map_eq_some_iff.1 h
  cases hscan : scan (Source.stripComments source) with
  | error e => rw [hscan] at htokens; cases htokens
  | ok found => rw [hscan] at htokens; cases htokens; exact ⟨_, rfl, hlexemes⟩

/-- A default clause that comes first in the body of a clause of a function with a name. -/
theorem check_error_surfaces_letValue :
    ∃ tokens tokens' e, scan (Source.stripComments "\x7b => 1 \x7d") = .ok tokens ∧
      scan (Source.stripComments "let f = \x7b x -> \x7b => 1 \x7d \x7d f") = .ok tokens' ∧
      Leads [.letValue, .clauseBody] (tokens'.map Token.lexeme)
        (tokens.map Token.lexeme ++ [.rbrace, .ident "f"]) ∧
      parse "\x7b => 1 \x7d" = .error e ∧ e.problem.isCheck ∧
      ∃ e', parse "let f = \x7b x -> \x7b => 1 \x7d \x7d f" = .error e' ∧ e'.problem = e.problem := by
  obtain ⟨tokens, htokens, hlexemes⟩ := @exists_tokens "\x7b => 1 \x7d"
    [.lbrace, .fatArrow, .integer "1", .rbrace] (by decide +kernel)
  obtain ⟨tokens', htokens', hlexemes'⟩ := @exists_tokens "let f = \x7b x -> \x7b => 1 \x7d \x7d f"
    [.letWord, .ident "f", .equals, .lbrace, .ident "x", .arrow, .lbrace, .fatArrow, .integer "1",
      .rbrace, .rbrace, .ident "f"] (by decide +kernel)
  obtain ⟨e, he, hproblem⟩ := @exists_error_of_problem? "\x7b => 1 \x7d" .defaultFirst
    (by decide +kernel)
  have hpath : Leads [.letValue, .clauseBody] (tokens'.map Token.lexeme)
      (tokens.map Token.lexeme ++ [.rbrace, .ident "f"]) := by
    rw [hlexemes, hlexemes']
    exact .letValue "f" (.clauseBody .nil (.mk (.simple (.name "x")) .nil) .here)
  have hcheck : e.problem.isCheck := by rw [hproblem]; rfl
  exact ⟨tokens, tokens', e, htokens, htokens', hpath, he, hcheck,
    check_error_surfaces htokens htokens' hpath he hcheck⟩

/-- As an item of an application the same text is refused for another reason, although the application
is in order around it. -/
theorem check_error_lost_in_item :
    ∃ e e', parse "\x7b => 1 \x7d" = .error e ∧ e.problem = .defaultFirst ∧
      (parse "(f \x7b x -> 1 \x7d)").toBool ∧ parse "(f \x7b => 1 \x7d)" = .error e' ∧
      e'.problem.message ≠ e.problem.message := by
  obtain ⟨e, he, hproblem⟩ := @exists_error_of_problem? "\x7b => 1 \x7d" .defaultFirst
    (by decide +kernel)
  obtain ⟨e', he', hproblem'⟩ := @exists_error_of_problem? "(f \x7b => 1 \x7d)" .unexpectedToken
    (by decide +kernel)
  have hrest : (parse "(f \x7b x -> 1 \x7d)").toBool := by decide +kernel
  refine ⟨e, e', he, hproblem, hrest, he', ?_⟩
  rw [hproblem, hproblem']
  decide

end ClauseLang

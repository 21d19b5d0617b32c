import ClauseLang.Proofs.Lift.Meaning
import ClauseLang.Proofs.Machine.Binders
import ClauseLang.Proofs.Machine.Dispatch

/-!
What a guard can see, for the lifting and for matching. Matching binds strictly from left to right,
so a condition sees what its row has bound before it. The lifting takes for bound whatever the row
binds up to the end of the formal that the guard is in, and gives the condition only the other names
back. The two agree on a condition that uses no name which its formal binds further on.
-/

namespace ClauseLang

open Lifting Eval

namespace Guard

/-- The second guard is what the lifting makes of the first: its condition gets back those of the
outer names that it mentions, and is lifted itself unless it is constant. -/
structure LiftsTo (builtins defined : List String) (outer : List (String × Expr)) (g g' : Guard) :
    Prop where
  before_eq : g'.before = g.before
  after_eq : g'.after = g.after
  constant_eq : g'.constant = g.constant
  condition_eq : ∃ lifted s s', g'.condition = wrap (mentioned g.condition outer) lifted ∧
    (if g.constant then pure g.condition
      else expr builtins ((mentioned g.condition outer).map Prod.fst ++ defined) g.condition) s =
        .ok lifted s'

/-- The lifting gives a condition back what it mentions of the outer names, except for those that it
takes for bound. A condition that is timely gets just what is not bound yet, and no other does. -/
theorem timely_iff {g : Guard} : g.Timely ↔
    ∀ outer : List (String × Expr), ∀ x ∈ g.condition.free,
      (x ∈ (mentioned g.condition (outside g.reach outer)).map Prod.fst ↔
        x ∈ outer.map Prod.fst ∧ x ∉ g.before) := by
  constructor
  · intro h outer x hx
    have hmentioned : x ∈ g.condition.identifiers := Expr.mem_identifiers_of_mem_free hx
    rw [← h.mem_reach_iff hx]
    simp [mentioned, outside, hmentioned]
  · intro h x hx hafter
    by_contra hbefore
    -- an outer `x` is not given back, though it is not bound yet
    have hback := (h [(x, .number 0)] x hx).2 ⟨by simp, hbefore⟩
    simp [mentioned, outside, reach, hafter] at hback

end Guard

/-- Wherever a guard stands in a formal, the names before and after it are those of the formal. -/
theorem Expr.reach_eq {e : Expr} {before after : List String} {g : Guard}
    (h : g ∈ e.guards before after) : g.reach = before ++ e.boundNames ++ after := by
  match e with
  | .cons head tail =>
    rw [guards, List.mem_append] at h
    rcases h with h | h
    · rw [reach_eq h, boundNames]
      simp only [List.append_assoc]
    · rw [reach_eq h, boundNames]
      simp only [List.append_assoc]
  | .guarded inner condition constant =>
    rw [guards, List.mem_append, List.mem_singleton] at h
    rcases h with h | rfl
    · rw [reach_eq h, boundNames]
    · rfl
  | .identifier _ | .application _ | .list _ | .label _ | .text _ | .number _ | .letIn _ _ _
  | .pattern _ _ | .builtin _ => cases h
termination_by sizeOf e

namespace Lifting

variable {builtins defined : List String} {outer : List (String × Expr)}

theorem boundNames_formal {e e' : Expr} {s s' : LiftState}
    (h : formal builtins defined outer e s = .ok e' s') : e'.boundNames = e.boundNames := by
  match e with
  | .cons head tail =>
    rw [formal] at h
    obtain ⟨head', s₁, hhead, h⟩ := exists_of_bind_eq_ok h
    obtain ⟨tail', s₂, htail, h⟩ := exists_of_bind_eq_ok h
    cases h
    rw [Expr.boundNames, Expr.boundNames, boundNames_formal hhead, boundNames_formal htail]
  | .guarded inner condition constant =>
    rw [formal_guarded] at h
    obtain ⟨inner', s₁, hinner, h⟩ := exists_of_bind_eq_ok h
    obtain ⟨condition', s₂, -, h⟩ := exists_of_bind_eq_ok h
    cases h
    rw [Expr.boundNames, Expr.boundNames, boundNames_formal hinner]
  | .identifier _ | .application _ | .list _ | .label _ | .text _ | .number _ | .letIn _ _ _
  | .pattern _ _ | .builtin _ =>
    cases h
    rfl
termination_by sizeOf e

/-- The guards of a formal are lifted one by one and keep their places. -/
theorem guards_formal {e e' : Expr} {s s' : LiftState}
    (h : formal builtins defined outer e s = .ok e' s') (before after : List String) :
    List.Forall₂ (Guard.LiftsTo builtins defined outer) (e.guards before after)
      (e'.guards before after) := by
  match e with
  | .cons head tail =>
    rw [formal] at h
    obtain ⟨head', s₁, hhead, h⟩ := exists_of_bind_eq_ok h
    obtain ⟨tail', s₂, htail, h⟩ := exists_of_bind_eq_ok h
    cases h
    rw [Expr.guards, Expr.guards, boundNames_formal hhead, boundNames_formal htail]
    exact List.rel_append (guards_formal hhead _ _) (guards_formal htail _ _)
  | .guarded inner condition constant =>
    rw [formal_guarded] at h
    obtain ⟨inner', s₁, hinner, h⟩ := exists_of_bind_eq_ok h
    obtain ⟨condition', s₂, hcondition, h⟩ := exists_of_bind_eq_ok h
    cases h
    rw [Expr.guards, Expr.guards, boundNames_formal hinner]
    refine List.rel_append (guards_formal hinner _ _) (.cons ?_ .nil)
    exact ⟨rfl, rfl, rfl, condition', _, _, rfl, hcondition⟩
  | .identifier _ | .application _ | .list _ | .label _ | .text _ | .number _ | .letIn _ _ _
  | .pattern _ _ | .builtin _ =>
    cases h
    exact .nil
termination_by sizeOf e

/-- At each guard of a row, what the lifting takes for bound is what the row binds up to the end of
the formal. -/
theorem rowGuards_row {bound : List String} {formals formals' : List Expr} {s s' : LiftState}
    (h : row builtins defined outer bound formals s = .ok formals' s') :
    List.Forall₂ (fun g g' => g.LiftsTo builtins defined (outside g.reach outer) g')
      (Expr.rowGuards bound formals) (Expr.rowGuards bound formals') := by
  induction formals generalizing bound formals' s with
  | nil =>
    cases h
    exact .nil
  | cons first rest ih =>
    rw [row] at h
    obtain ⟨first', s₁, hfirst, h⟩ := exists_of_bind_eq_ok h
    obtain ⟨rest', s₂, hrest, h⟩ := exists_of_bind_eq_ok h
    cases h
    rw [Expr.rowGuards, Expr.rowGuards, boundNames_formal hfirst]
    refine List.rel_append ?_ (ih hrest)
    have hguards := (List.forall₂_and_left _ _).2
      ⟨fun g hg => Expr.reach_eq hg, guards_formal hfirst bound []⟩
    refine hguards.imp fun g g' ⟨hreach, hlifts⟩ => ?_
    rwa [hreach, List.append_nil]

end Lifting

/-- The names have been bound on top of the first scope, one frame after another. -/
inductive Env.Binds (env : Env) : List String → Env → Prop
  | refl : env.Binds [] env
  | extend {names : List String} {scope : Env} (mark : Nat) (bound : List (String × Expr)) :
    env.Binds names scope → env.Binds (names ++ bound.map Prod.fst) (scope.extend mark bound)

section

variable {ev ev' : Evaluator} {env scope : Env}

theorem Eval.bind_congr_of_reports {α β : Type} {x : Eval α} {P : α → Prop}
    {E : RuntimeError → Prop} {f g : α → Eval β} (hx : x.Reports P E) (h : ∀ a, P a → f a = g a) :
    x >>= f = x >>= g := by
  funext m
  have hm := hx m
  change EStateM.bind x f m = EStateM.bind x g m
  unfold EStateM.bind
  cases hr : x m with
  | error => rfl
  | ok a m' =>
    rw [hr] at hm
    exact congrFun (h a hm) m'

theorem matchInto_names (ev : Evaluator) (env : Env) (formal argument : Expr)
    (bound : List (String × Expr)) :
    (matchInto ev env formal argument bound).Reports
      (fun r => ∀ bound' ∈ r, bound'.map Prod.fst = bound.map Prod.fst ++ formal.boundNames)
      fun _ => True := by
  refine (matchInto_parts ev env formal argument bound).mono (fun r hr bound' hbound => ?_) fun _ => id
  obtain ⟨rfl, hnames⟩ := hr bound' hbound
  rw [List.map_append, hnames]

theorem tryMatch_binds {names : List String} (ev : Evaluator) (formal argument : Expr)
    (h : env.Binds names scope) :
    (tryMatch ev formal argument scope).Reports
      (fun r => ∀ inner ∈ r, env.Binds (names ++ formal.boundNames) inner) fun _ => True := by
  refine (matchInto_names ev scope formal argument []).bind fun r hr => ?_
  cases r with
  | none => exact Reports.pure (by simp)
  | some bound =>
    rw [← (hr bound rfl).trans (List.nil_append _)]
    refine (Reports.extend (P := env.Binds (names ++ bound.map Prod.fst)) fun mark =>
      .extend mark bound h).bind fun inner hinner => Reports.pure ?_
    rintro _ ⟨rfl⟩
    exact hinner

/-- The evaluators agree on each guard, in every scope that has bound the names before it. -/
def Evaluator.AgreeOn (env : Env) (guards : List Guard) (ev ev' : Evaluator) : Prop :=
  ∀ g ∈ guards, ∀ scope, env.Binds g.before scope →
    ev g.condition scope true = ev' g.condition scope true

theorem matchInto_congr {formal argument : Expr} {bound : List (String × Expr)}
    {names after : List String} (hscope : env.Binds names scope)
    (h : ev.AgreeOn env (formal.guards (names ++ bound.map Prod.fst) after) ev') :
    matchInto ev scope formal argument bound = matchInto ev' scope formal argument bound := by
  match formal with
  | .cons head tail =>
    rw [Evaluator.AgreeOn, Expr.guards, List.forall_mem_append] at h
    rw [matchInto, matchInto]
    split
    · rfl
    next front rest _ =>
      rw [← matchInto_congr hscope h.1]
      refine bind_congr_of_reports (matchInto_names ev scope head front bound) fun r hr => ?_
      cases r with
      | none => rfl
      | some bound₁ =>
        have htail : ev.AgreeOn env (tail.guards (names ++ bound₁.map Prod.fst) after) ev' := by
          rw [hr bound₁ rfl, ← List.append_assoc]
          exact h.2
        exact matchInto_congr hscope htail
  | .guarded inner condition constant =>
    rw [Evaluator.AgreeOn, Expr.guards, List.forall_mem_append, List.forall_mem_singleton] at h
    rw [matchInto, matchInto, ← matchInto_congr hscope h.1]
    refine bind_congr_of_reports (matchInto_names ev scope inner argument bound) fun r hr => ?_
    cases r with
    | none => rfl
    | some bound₁ =>
      -- the condition is evaluated where the names so far are bound
      have hbinds : (extend scope bound₁).Reports
          (env.Binds (names ++ bound.map Prod.fst ++ inner.boundNames)) fun _ => True := by
        rw [List.append_assoc, ← hr bound₁ rfl]
        exact Reports.extend fun mark => .extend mark bound₁ hscope
      refine bind_congr_of_reports hbinds fun tentative htentative => ?_
      rw [h.2 tentative htentative]
  | .identifier _ | .number _ | .text _ | .label _ | .list _ | .application _ | .letIn _ _ _
  | .pattern _ _ | .builtin _ => rfl
termination_by sizeOf formal

/-- Matching a row evaluates nothing but conditions in safe mode, each where the names before it are
bound. -/
theorem rowMatch_congr {row : List Expr} {names : List String} (arguments : List Expr)
    (hscope : env.Binds names scope) (h : ev.AgreeOn env (Expr.rowGuards names row) ev') :
    rowMatch ev row arguments scope = rowMatch ev' row arguments scope := by
  induction row generalizing names scope arguments with
  | nil => rfl
  | cons formal row ih =>
    rw [Evaluator.AgreeOn, Expr.rowGuards, List.forall_mem_append] at h
    cases arguments with
    | nil => rfl
    | cons argument arguments =>
      have hguards : ev.AgreeOn env
          (formal.guards (names ++ ([] : List (String × Expr)).map Prod.fst) []) ev' := by
        rw [List.map_nil, List.append_nil]
        exact h.1
      have hformal : tryMatch ev formal argument scope = tryMatch ev' formal argument scope := by
        rw [tryMatch, tryMatch, matchInto_congr hscope hguards]
      rw [Thread.rowMatch_cons, Thread.rowMatch_cons, ← hformal]
      refine bind_congr_of_reports (tryMatch_binds ev formal argument hscope) fun r hr => ?_
      cases r with
      | none => rfl
      | some inner => exact ih arguments (hr inner rfl) h.2

end

/-- The lifting and matching agree on what the guards of a row see. -/
structure GuardsAgree (row : List Expr) : Prop where
  /-- At each guard the lifting takes for bound what the row binds up to the end of the formal, and
  gives the condition back what it mentions of the rest. -/
  lifted : ∀ builtins defined outer s row' s',
    Lifting.row builtins defined outer [] row s = .ok row' s' →
    List.Forall₂ (fun g g' => g.LiftsTo builtins defined (outside g.reach outer) g')
      (Expr.rowGuards [] row) (Expr.rowGuards [] row')
  /-- Matching evaluates each condition where the names before it are bound. -/
  matched : ∀ ev ev' arguments env, Evaluator.AgreeOn env (Expr.rowGuards [] row) ev ev' →
    rowMatch ev row arguments env = rowMatch ev' row arguments env
  /-- Of the names that a condition uses, it is given back just those that are not bound there. -/
  given_back : ∀ g ∈ Expr.rowGuards [] row, ∀ outer, ∀ x ∈ g.condition.free,
    (x ∈ (mentioned g.condition (outside g.reach outer)).map Prod.fst ↔
      x ∈ outer.map Prod.fst ∧ x ∉ g.before)

theorem guardsAgree_iff {row : List Expr} :
    GuardsAgree row ↔ ∀ g ∈ Expr.rowGuards [] row, g.Timely := by
  constructor
  · intro h g hg
    exact Guard.timely_iff.2 (h.given_back g hg)
  · intro h
    exact {
      lifted := fun _ _ _ _ _ _ hrow => rowGuards_row hrow
      matched := fun _ _ arguments _ hagree => rowMatch_congr arguments .refl hagree
      given_back := fun g hg => Guard.timely_iff.1 (h g hg) }

theorem run_lift_of_timely {p l : Expr} (hcode : IsCodeOf .timely p) (hl : lift p = .ok l)
    (cfg : Config) (fuel : Nat) (m : Machine)
    (hends : (runUntil Expr.testsClosures cfg fuel p).ends m) :
    match run cfg fuel p m with
    | .ok v _ => v.isFirstOrder → ∃ m', Settles (fun k => run cfg k l m) (.ok v m')
    | .error (.error e) _ => ∃ e' m', e.fault.Similar e'.fault ∧
        Settles (fun k => run cfg k l m) (.error (.error e') m')
    | .error .outOfFuel _ => False := by
  have hlift := runUntil_lift hcode hl (fun _ _ _ htests => htests) cfg fuel m
  rw [runUntil_extends fuel p m hends]
  unfold Eval.ends at hends
  generalize runUntil Expr.testsClosures cfg fuel p m = r at hends hlift
  match r with
  | .ok v _ | .error (.error e) _ => exact hlift
  | .error .outOfFuel _ => cases hends

/-- The lifting and matching agree on what the guards of a row see just if no condition uses a name
that its formal has yet to bind. So they agree on all rows of a program with such guards, at any
depth; and a run of it, if it tests no closures for equality, leads to the same data as one of the
lifted program, or to a fault of the same kind. -/
theorem guards_agree (p : Expr) :
    (∀ row ∈ p.rows, GuardsAgree row ↔ ∀ g ∈ Expr.rowGuards [] row, g.Timely) ∧
    (IsCodeOf .timely p → (∀ row ∈ p.rows, GuardsAgree row) ∧
      ∀ l, lift p = .ok l → ∀ cfg fuel m, (runUntil Expr.testsClosures cfg fuel p).ends m →
        match run cfg fuel p m with
        | .ok v _ => v.isFirstOrder → ∃ m', Settles (fun k => run cfg k l m) (.ok v m')
        | .error (.error e) _ => ∃ e' m', e.fault.Similar e'.fault ∧
            Settles (fun k => run cfg k l m) (.error (.error e') m')
        | .error .outOfFuel _ => False) := by
  refine ⟨fun row _ => guardsAgree_iff, fun hcode => ⟨fun row hrow => ?_, fun l hl => ?_⟩⟩
  · exact guardsAgree_iff.2 (timely_of_mem_rows hcode row hrow)
  · exact run_lift_of_timely hcode hl

/-- A cons whose head has a guard that uses an outer `y`. -/
def guardedCons (tail : String) : Expr :=
  .cons (.guarded (.identifier "x")
    (.application [.identifier ">", .identifier "x", .identifier "y"]) false) (.identifier tail)

/-- The row binds `y` again, but not in the formal of the guard. -/
def timelyRow : List Expr :=
  [guardedCons "ys", .identifier "y"]

def timelyBody : Expr :=
  .list [.identifier "x", .identifier "ys",
    .application [.identifier "==", .identifier "y", .number 3]]

/-- `let y = 1 let f = { [x : (> x y) : ys] y -> [x ys (== y 3)] } (f [5 2] 3)`. -/
def timelyProgram : Expr :=
  .letIn ["y", "f"] [.number 1, .pattern [.mk timelyRow timelyBody] []]
    (.application [.identifier "f", .list [.number 5, .number 2], .number 3])

theorem isCode_timelyProgram : IsCodeOf .timely timelyProgram := by
  have hcondition : IsCodeOf .timely
      (.application [.identifier ">", .identifier "x", .identifier "y"]) :=
    .application (by simp [IsCodeOf.identifier])
  have hcons : IsFormalOf .timely (guardedCons "ys") :=
    .nestedCons (.guarded "x" false hcondition) (.simple (.identifier "ys"))
  have hrow : ∀ formal ∈ timelyRow, IsFormalOf .timely formal := by
    rw [timelyRow, List.forall_mem_cons, List.forall_mem_singleton]
    exact ⟨hcons, .simple (.identifier "y")⟩
  have htest : IsCodeOf .timely
      (.application [.identifier "==", .identifier "y", .number 3]) :=
    .application (by simp [IsCodeOf.identifier, IsCodeOf.number])
  have hbody : IsCodeOf .timely timelyBody :=
    .list (by simp [IsCodeOf.identifier, htest])
  have hclause : IsClauseOf .timely 2 (.mk timelyRow timelyBody) :=
    .timely hrow (by decide) hbody
  have hpattern := IsCodeOf.pattern (by decide) (by simp) (List.forall_mem_singleton.2 hclause)
  have hlist : IsCodeOf .timely (.list [.number 5, .number 2]) :=
    .list (by simp [IsCodeOf.number])
  exact .letIn rfl (by simp [IsCodeOf.number, hpattern])
    (.application (by simp [IsCodeOf.identifier, IsCodeOf.number, hlist]))

theorem guards_agree_timelyProgram :
    timelyRow ∈ timelyProgram.rows ∧ (∀ g ∈ Expr.rowGuards [] timelyRow, g.Timely) ∧
    GuardsAgree timelyRow ∧ IsCodeOf .timely timelyProgram ∧
    (runUntil Expr.testsClosures {} 64 timelyProgram).ends {} ∧
    ∃ l v m m', lift timelyProgram = .ok l ∧ run {} 64 timelyProgram {} = .ok v m ∧
      v.render = "[5 [2] .true]" ∧ Settles (fun k => run {} k l {}) (.ok v m') := by
  have hmem : timelyRow ∈ timelyProgram.rows := by
    simp [timelyProgram, Expr.rows, Expr.itemsRows, Expr.clausesRows]
  have hends : (runUntil Expr.testsClosures {} 64 timelyProgram).ends {} := by decide +kernel
  have hall : ((lift timelyProgram).toOption.bind fun _ =>
      ((run {} 64 timelyProgram).value? {}).map fun v => (v.isFirstOrder, v.render)) =
        some (true, "[5 [2] .true]") := by decide +kernel
  obtain ⟨l, hl, hall⟩ := Option.bind_eq_some_iff.1 hall
  obtain ⟨v, hv, hall⟩ := Option.map_eq_some_iff.1 hall
  rw [Prod.mk.injEq] at hall
  obtain ⟨hfirst, hrender⟩ := hall
  have hl := eq_ok_of_toOption_eq_some hl
  obtain ⟨m, hrun⟩ := Eval.exists_ok_of_value? hv
  obtain ⟨hexact, hagree⟩ := guards_agree timelyProgram
  obtain ⟨hrows, hruns⟩ := hagree isCode_timelyProgram
  have h := hruns l hl {} 64 {} hends
  rw [hrun] at h
  obtain ⟨m', hsettles⟩ := h hfirst
  exact ⟨hmem, (hexact timelyRow hmem).1 (hrows timelyRow hmem), hrows timelyRow hmem,
    isCode_timelyProgram, hends, l, v, m, m', hl, hrun, hrender, hsettles⟩

/-- `let y = 1 let f = { [x : (> x y) : y] -> .big _ -> .small } (f [5 2])`. The formal of the guard
binds `y` after it. -/
def untimelyProgram : Expr :=
  .letIn ["y", "f"] [.number 1, .pattern [.mk [guardedCons "y"] (.label "big"),
    .mk [.identifier discard] (.label "small")] []]
    (.application [.identifier "f", .list [.number 5, .number 2]])

/-- The lifting takes `y` for bound at the guard, where matching has not bound it yet. The outer `y`
comes to the lifted clause under a new name and the condition does not get the old one back, so it
fails and the clause is passed over. -/
theorem guard_sees_name_bound_after_it :
    (Expr.rowGuards [] [guardedCons "y"]).map (fun g => (g.before, g.reach)) =
      [(["x"], ["x", "y"])] ∧
    ¬ GuardsAgree [guardedCons "y"] ∧
    "==" ∉ untimelyProgram.identifiers ∧ "!=" ∉ untimelyProgram.identifiers ∧
    ((run {} 64 untimelyProgram).value? {}).map Expr.render = some ".big" ∧
    ((lift untimelyProgram).toOption.bind fun l => (run {} 64 l).value? {}).map Expr.render =
      some ".small" := by
  refine ⟨by decide, ?_, by decide, by decide, by decide +kernel, by decide +kernel⟩
  rw [guardsAgree_iff]
  decide

end ClauseLang

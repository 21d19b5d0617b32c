import ClauseLang.Proofs.Machine.Made
import ClauseLang.Proofs.Machine.Until

/-!
Equal functions are interchangeable where data comes out. Closures are equal only if they are the same
closure, for a mark belongs to one scope. Builtins with one name are the same up to the scopes of the
closures that they wait with, and it takes a test for equality to see those.
-/

namespace ClauseLang

open ClauseLang.Expr Eval

/-! ### Values of one machine -/

/-- The scopes and the values that have come up on a machine. Scopes are made, code is evaluated in
them, values are applied and taken apart, in any order; whatever else the machine did in between, it
has not taken back a mark. -/
inductive Session (cfg : Config) : Machine → List Env → List Expr → Prop
  | start (m : Machine) : Session cfg m [] []
  | later {m m' : Machine} {scopes : List Env} {values : List Expr} :
    Session cfg m scopes values → m.nextMark ≤ m'.nextMark → Session cfg m' scopes values
  | root {m m' : Machine} {scopes : List Env} {values : List Expr} {env : Env} :
    Session cfg m scopes values → freshRoot m = .ok env m' → Session cfg m' (env :: scopes) values
  | extend {m m' : Machine} {scopes : List Env} {values : List Expr} {env env' : Env}
      {named : List (String × Expr)} :
    Session cfg m scopes values → env ∈ scopes → (∀ p ∈ named, p.2 ∈ values) →
      Eval.extend env named m = .ok env' m' → Session cfg m' (env' :: scopes) values
  | extendRecursive {m m' : Machine} {scopes : List Env} {values : List Expr} {env env' : Env}
      {name : String} {clauses : List Clause} :
    Session cfg m scopes values → env ∈ scopes → (∀ clause ∈ clauses, clause.IsBare) →
      Eval.extendRecursive env name clauses m = .ok env' m' →
        Session cfg m' (env' :: scopes) values
  | captured {m : Machine} {scopes : List Env} {values : List Expr} {clauses : List Clause}
      {captured : List Env} {env : Env} :
    Session cfg m scopes values → .pattern clauses captured ∈ values → env ∈ captured →
      Session cfg m (env :: scopes) values
  | eval {m m' : Machine} {scopes : List Env} {values : List Expr} {env : Env} {e v : Expr}
      {fuel : Nat} {safe : Bool} :
    Session cfg m scopes values → env ∈ scopes → e.IsBare →
      eval cfg fuel e env safe m = .ok v m' → Session cfg m' scopes (v :: values)
  | apply {m m' : Machine} {scopes : List Env} {values : List Expr} {f a v : Expr} {fuel : Nat}
      {safe : Bool} :
    Session cfg m scopes values → f ∈ values → a ∈ values →
      apply cfg (eval cfg fuel) f a safe m = .ok v m' →
        Session cfg m' scopes (v :: values)
  | split {m : Machine} {scopes : List Env} {values : List Expr} {head a front rest : Expr} :
    Session cfg m scopes values → a ∈ values → split? head a = some (front, rest) →
      Session cfg m scopes (front :: rest :: values)

namespace Made

variable {scopes scopes' : Set Env} {n : Nat}

theorem Keeps.of_eq_ok {α : Type} {P : Set Env → α → Prop} {x : Eval α} {a : α} {m m' : Machine}
    (h : Keeps P scopes x) (hmade : Made scopes m.nextMark) (hx : x m = .ok a m') :
    ∃ scopes', scopes ≤ scopes' ∧ Made scopes' m'.nextMark ∧ P scopes' a := by
  have hends := h m m ⟨hmade, rfl, rfl⟩
  rw [hx] at hends
  cases hends with
  | ok hle hholds hshared _ => exact ⟨_, hle, hholds.1, hshared.1⟩

end Made

/-- The scopes are made on the machine, and the values are over such scopes. -/
structure Grounded (made : Set Env) (m : Machine) (scopes : List Env) (values : List Expr) :
    Prop where
  isMade : Made made m.nextMark
  mem : ∀ env ∈ scopes, env ∈ made
  genuine : ∀ v ∈ values, Genuine made v

namespace Grounded

variable {made made' : Set Env} {m m' : Machine} {scopes : List Env} {values : List Expr}

theorem mono (h : Grounded made m scopes values) (hle : made ≤ made')
    (hmade : Made made' m'.nextMark) : Grounded made' m' scopes values :=
  ⟨hmade, fun env henv => hle (h.mem env henv), fun v hv => (h.genuine v hv).mono hle⟩

theorem scope (h : Grounded made m scopes values) {env : Env} (henv : env ∈ made) :
    Grounded made m (env :: scopes) values :=
  ⟨h.isMade, List.forall_mem_cons.2 ⟨henv, h.mem⟩, h.genuine⟩

theorem value (h : Grounded made m scopes values) {v : Expr} (hv : Genuine made v) :
    Grounded made m scopes (v :: values) :=
  ⟨h.isMade, h.mem, List.forall_mem_cons.2 ⟨hv, h.genuine⟩⟩

theorem scope_of_eq_ok (h : Grounded made m scopes values) {x : Eval Env} {env : Env}
    (hx : Made.Keeps (fun made env => env ∈ made) made x) (henv : x m = .ok env m') :
    ∃ made', Grounded made' m' (env :: scopes) values := by
  obtain ⟨made', hle, hmade, hmem⟩ := hx.of_eq_ok h.isMade henv
  exact ⟨made', (h.mono hle hmade).scope hmem⟩

theorem value_of_eq_ok (h : Grounded made m scopes values) {x : Eval Expr} {v : Expr}
    (hx : Made.Keeps Genuine made x) (hv : x m = .ok v m') :
    ∃ made', Grounded made' m' scopes (v :: values) := by
  obtain ⟨made', hle, hmade, hgenuine⟩ := hx.of_eq_ok h.isMade hv
  exact ⟨made', (h.mono hle hmade).value hgenuine⟩

end Grounded

/-- In a session all scopes are made by its machine, and all values are over such scopes. -/
theorem Session.exists_grounded {cfg : Config} {m : Machine} {scopes : List Env}
    {values : List Expr} (h : Session cfg m scopes values) :
    ∃ made, Grounded made m scopes values := by
  induction h with
  | start m => exact ⟨∅, .empty _, nofun, nofun⟩
  | later _ hle ih =>
    obtain ⟨made, h⟩ := ih
    exact ⟨made, h.mono le_rfl (h.isMade.mono hle)⟩
  | root _ hroot ih =>
    obtain ⟨made, h⟩ := ih
    exact h.scope_of_eq_ok Made.keeps_freshRoot hroot
  | extend _ henv hnamed hextend ih =>
    obtain ⟨made, h⟩ := ih
    exact h.scope_of_eq_ok
      (Made.keeps_extend (h.mem _ henv) fun p hp => h.genuine _ (hnamed p hp)) hextend
  | extendRecursive _ henv hclauses hextend ih =>
    obtain ⟨made, h⟩ := ih
    exact h.scope_of_eq_ok (Made.keeps_extendRecursive (h.mem _ henv) _ hclauses) hextend
  | captured _ hclosure henv ih =>
    obtain ⟨made, h⟩ := ih
    cases h.genuine _ hclosure with
    | closure _ hcaptured => exact ⟨made, h.scope (hcaptured _ henv)⟩
  | eval _ henv he heval ih =>
    obtain ⟨made, h⟩ := ih
    exact h.value_of_eq_ok (Made.keeps_eval cfg _ he (h.mem _ henv) made _ le_rfl) heval
  | apply _ hf ha happly ih =>
    obtain ⟨made, h⟩ := ih
    exact h.value_of_eq_ok (Made.keeps_apply (Made.keeps_eval cfg _) _ ⟨h.genuine _ hf, rfl⟩
      ⟨h.genuine _ ha, rfl⟩) happly
  | split _ ha hsplit ih =>
    obtain ⟨made, h⟩ := ih
    obtain ⟨hfront, hrest⟩ := (ofData_genuine made).of_split? (h.genuine _ ha) hsplit
    exact ⟨made, (h.value hrest).value hfront⟩

/-! ### Equal functions -/

namespace Expr

/-- A test for equality that waits with a closure, or with a list that has closures in it. -/
def comparesClosure : Expr → Bool
  | .builtin (.waiting op left) => op.isTest && left.listsClosure
  | _ => false

theorem itemsFirstOrder_iff {items : List Expr} :
    itemsFirstOrder items ↔ ∀ item ∈ items, item.isFirstOrder := by
  induction items with
  | nil => simp [itemsFirstOrder]
  | cons item items ih => rw [itemsFirstOrder, Bool.and_eq_true, ih, List.forall_mem_cons]

theorem itemsListClosure_eq_false_iff {items : List Expr} :
    itemsListClosure items = false ↔ ∀ item ∈ items, item.listsClosure = false := by
  induction items with
  | nil => simp [itemsListClosure]
  | cons item items ih => rw [itemsListClosure, Bool.or_eq_false_iff, ih, List.forall_mem_cons]

end Expr

section

variable {made : Set Env} {n : Nat} {v w left left' right r : Expr} {op : BinaryOp}

theorem Genuine.of_isFirstOrder (hv : Genuine made v) (h : v.isFirstOrder) :
    v.IsBare ∧ v.listsClosure = false := by
  induction hv with
  | label hname => exact ⟨hname, rfl⟩
  | text | number => exact ⟨⟨trivial, rfl⟩, rfl⟩
  | list _ ih =>
    have hitems := itemsFirstOrder_iff.1 h
    exact ⟨isBare_list.2 fun item hitem => (ih item hitem (hitems item hitem)).1,
      itemsListClosure_eq_false_iff.2 fun item hitem => (ih item hitem (hitems item hitem)).2⟩
  | unary | binary | waiting | closure => cases h

namespace BinaryOp

theorem isFirstOrder_of_numbers {f : Int × Int → Except Fault Expr}
    (h : (op.numbers left right >>= f) = .ok r) : left.isFirstOrder := by
  unfold BinaryOp.numbers at h
  split at h
  · rfl
  · cases h

theorem isFirstOrder_of_truth {f : Bool → Except Fault Expr}
    (h : (op.truth left >>= f) = .ok r) : left.isFirstOrder := by
  unfold BinaryOp.truth at h
  split at h
  · rfl
  · rfl
  · cases h

theorem isFirstOrder_of_join (h : op.join left right = .ok r) (hr : r.isFirstOrder) :
    left.isFirstOrder := by
  unfold BinaryOp.join at h
  split at h
  · cases h
    have hitems := itemsFirstOrder_iff.1 hr
    exact itemsFirstOrder_iff.2 fun item hitem => hitems item (List.mem_append_left _ hitem)
  · rfl
  · cases h

/-- Other builtins than the tests for equality make data of data alone. -/
theorem isFirstOrder_of_compute (hop : op.isTest = false) (h : op.compute left right = .ok r)
    (hr : r.isFirstOrder) : left.isFirstOrder := by
  cases op with
  | add | sub | mul | div | rem | greater | greaterEqual | less | lessEqual =>
    exact isFirstOrder_of_numbers h
  | both | either => exact isFirstOrder_of_truth h
  | concat => exact isFirstOrder_of_join h hr
  | equal | notEqual => cases hop

/-- Operands that are printed alike make the same data, closures in tests for equality apart. -/
theorem compute_eq_of_render_eq (hleft : Genuine made left) (hleft' : Genuine made left')
    (hrender : left.render = left'.render)
    (hclosure : (Expr.builtin (.waiting op left)).comparesClosure = false)
    (h : op.compute left right = .ok r) (hr : r.isFirstOrder) : op.compute left' right = .ok r := by
  cases htest : op.isTest with
  | true =>
    have hlists : left.listsClosure = false := by
      rwa [comparesClosure, htest, Bool.true_and] at hclosure
    have hequal := equal_congr (equal_of_render_eq hleft hleft' hlists hrender) right
    cases op with
    | equal | notEqual =>
      rw [BinaryOp.compute, ← hequal]
      exact h
    | _ => cases htest
  | false =>
    obtain ⟨hbare, hlists⟩ := hleft.of_isFirstOrder (isFirstOrder_of_compute htest h hr)
    rwa [← eq_of_equal hbare (equal_of_render_eq hleft hleft' hlists hrender)]

end BinaryOp

namespace Made

theorem eq_of_map_mark_eq (hmade : Made made n) {envs envs' : List Env}
    (henvs : ∀ env ∈ envs, env ∈ made) (henvs' : ∀ env ∈ envs', env ∈ made)
    (h : envs.map Env.mark = envs'.map Env.mark) : envs = envs' := by
  induction envs generalizing envs' with
  | nil => exact (List.map_eq_nil_iff.1 h.symm).symm
  | cons env envs ih =>
    cases envs' with
    | nil => cases h
    | cons env' envs' =>
      rw [List.forall_mem_cons] at henvs henvs'
      rw [List.map_cons, List.map_cons, List.cons.injEq] at h
      rw [hmade.unique env henvs.1 env' henvs'.1 h.1, ih henvs.2 henvs'.2 h.2]

/-- Equal closures are the same closure. -/
theorem closure_eq_of_equal (hmade : Made made n) {clauses : List Clause} {captured : List Env}
    (hv : Genuine made (.pattern clauses captured)) (hw : Genuine made w)
    (h : (Expr.pattern clauses captured).equal w) : .pattern clauses captured = w := by
  cases hw with
  | closure hclauses' hcaptured' =>
    cases hv with
    | closure hclauses hcaptured =>
      rw [equal, Bool.and_eq_true, beq_iff_eq] at h
      rw [eq_of_equalClauses hclauses h.1, hmade.eq_of_map_mark_eq hcaptured hcaptured' h.2]
  | _ => simp [equal] at h

end Made

/-- Equal builtins are the same, or wait with operands that are printed alike. -/
theorem builtin_cases_of_equal {op : Builtin} (hv : Genuine made (.builtin op))
    (hw : Genuine made w) (h : (Expr.builtin op).equal w) :
    .builtin op = w ∨ ∃ binary left left', op = .waiting binary left ∧
      w = .builtin (.waiting binary left') ∧ left.render = left'.render := by
  obtain ⟨op', rfl⟩ : ∃ op', w = .builtin op' := by
    cases hw with
    | unary | binary | waiting => exact ⟨_, rfl⟩
    | _ => simp [equal] at h
  rw [equal, beq_iff_eq, Builtin.name, Builtin.name, String.ofList_inj] at h
  rcases builtin_unique hv hw (by simp) (by simp) h with
    ⟨rfl, -⟩ | ⟨binary, left, left', rfl, rfl, hleft⟩
  · exact .inl rfl
  · exact .inr ⟨binary, left, left', rfl, rfl, by rw [render, render, hleft]⟩

theorem apply_waiting_eq_ok_iff {cfg : Config} {ev : Evaluator} {a : Expr} {m m' : Machine} :
    apply cfg ev (.builtin (.waiting op left)) a false m = .ok r m' ↔
      op.compute left a = .ok r ∧ m = m' := by
  rw [apply, contain_false]
  dsimp only [Builtin.call]
  unfold during Eval.ofExcept
  cases op.compute left a with
  | ok v => simp [pure, EStateM.pure]
  | error fault => simp [Eval.fail]

/-- Equal functions are interchangeable: what one of them makes of an argument, if it is data, the
other one makes of it as well, unless they are tests for equality that wait with a closure. -/
theorem apply_of_equal {cfg : Config} {m₀ : Machine} {scopes : List Env} {values : List Expr}
    (hsession : Session cfg m₀ scopes values) (hv : v ∈ values) (hw : w ∈ values)
    (hequal : v.equal w) (hclosure : v.comparesClosure = false) {fuel : Nat} {a r : Expr}
    {m m' : Machine} (h : apply cfg (eval cfg fuel) v a false m = .ok r m')
    (hr : r.isFirstOrder) : apply cfg (eval cfg fuel) w a false m = .ok r m' := by
  obtain ⟨made, hmade, -, hgenuine⟩ := hsession.exists_grounded
  have hv := hgenuine v hv
  have hw := hgenuine w hw
  match v, hv with
  | .pattern clauses captured, hv =>
    rwa [← hmade.closure_eq_of_equal hv hw hequal]
  | .builtin op, hv =>
    rcases builtin_cases_of_equal hv hw hequal with rfl | ⟨binary, left, left', rfl, rfl, hrender⟩
    · exact h
    · cases hv with
      | waiting _ hleft =>
        cases hw with
        | waiting _ hleft' =>
          obtain ⟨hcompute, hstate⟩ := apply_waiting_eq_ok_iff.1 h
          exact apply_waiting_eq_ok_iff.2 ⟨BinaryOp.compute_eq_of_render_eq hleft hleft' hrender
            hclosure hcompute hr, hstate⟩
  | .label _, _ | .text _, _ | .number _, _ | .list _, _ => cases h

end

def constants (first second third : String) : String :=
  "let k = \x7b x -> \x7b _ -> x \x7d \x7d let f = (k 1) let g = (k 2) [" ++ first ++ " " ++ second ++
    " " ++ third ++ "]"

/-- The values in the list that a program comes to, and the machine afterwards. -/
def threeOf (source : String) : Option (Expr × Expr × Expr × Machine) :=
  match parse source with
  | .ok e =>
    match run {} 64 e {} with
    | .ok (.list [v, w, a]) m => some (v, w, a, m)
    | _ => none
  | .error _ => none

theorem session_of_threeOf {source : String} {v w a : Expr} {m : Machine}
    (h : threeOf source = some (v, w, a, m)) :
    ∃ scopes values, Session {} m scopes values ∧ v ∈ values ∧ w ∈ values ∧ a ∈ values := by
  unfold threeOf at h
  split at h
  next e hparse =>
    split at h
    next hrun =>
      cases h
      have hsplit (first : Expr) (rest : List Expr) :
          split? (.identifier discard) (.list (first :: rest)) = some (first, .list rest) := rfl
      have hroot : Session {} _ [.withBuiltins 0] [] := (Session.start {}).root rfl
      have hlist := hroot.eval List.mem_cons_self (isBare_of_parse hparse) hrun
      have hv := hlist.split List.mem_cons_self (hsplit v [w, a])
      have hw := hv.split (List.mem_cons_of_mem _ List.mem_cons_self) (hsplit w [a])
      have ha := hw.split (List.mem_cons_of_mem _ List.mem_cons_self) (hsplit a [])
      exact ⟨_, _, ha, by simp, by simp, by simp⟩
    · cases h
  · cases h

/-- Tests for equality that wait with builtins, which wait with closures over different frames. -/
theorem apply_of_equal_otherFrames :
    ∃ m scopes values v w a r m', Session {} m scopes values ∧ v ∈ values ∧ w ∈ values ∧
      v.equal w ∧ v.comparesClosure = false ∧ v.marks ≠ w.marks ∧
      apply {} (eval {} 64) v a false m = .ok r m' ∧ r.isFirstOrder ∧
      apply {} (eval {} 64) w a false m = .ok r m' := by
  have hrun : (threeOf (constants "(== [(== f)])" "(== [(== g)])" "[(== f)]")).any fun (v, w, a, m) =>
      v.equal w && !v.comparesClosure && v.marks != w.marks &&
        ((apply {} (eval {} 64) v a false).value? m).any isFirstOrder := by decide +kernel
  obtain ⟨⟨v, w, a, m⟩, hthree, h⟩ := (Option.any_eq_true _ _).1 hrun
  simp only [Bool.and_eq_true, Bool.not_eq_true', bne_iff_ne] at h
  obtain ⟨⟨⟨hequal, hclosure⟩, hmarks⟩, happly⟩ := h
  obtain ⟨r, hvalue, hr⟩ := (Option.any_eq_true _ _).1 happly
  obtain ⟨m', h⟩ := exists_ok_of_value? hvalue
  obtain ⟨scopes, values, hsession, hv, hw, -⟩ := session_of_threeOf hthree
  exact ⟨m, scopes, values, v, w, a, r, m', hsession, hv, hw, hequal, hclosure, hmarks, h, hr,
    apply_of_equal hsession hv hw hequal hclosure h hr⟩

/-- Two tests for equality are equal that wait with closures over different frames. Only one of them
finds its closure again. -/
theorem equal_tests_differ :
    ∃ m scopes values v w a r m', Session {} m scopes values ∧ v ∈ values ∧ w ∈ values ∧
      a ∈ values ∧ v.equal w ∧ apply {} (eval {} 64) v a false m = .ok r m' ∧ r.isFirstOrder ∧
      ∀ m'', apply {} (eval {} 64) w a false m ≠ .ok r m'' := by
  have hrun : (threeOf (constants "(== f)" "(== g)" "f")).any fun (v, w, a, m) =>
      v.equal w && ((apply {} (eval {} 64) v a false).value? m).any (fun r =>
        r.isFirstOrder && r.isTruthy) &&
        !((apply {} (eval {} 64) w a false).value? m).any isTruthy := by decide +kernel
  obtain ⟨⟨v, w, a, m⟩, hthree, h⟩ := (Option.any_eq_true _ _).1 hrun
  simp only [Bool.and_eq_true, Bool.not_eq_true'] at h
  obtain ⟨⟨hequal, happly⟩, hother⟩ := h
  obtain ⟨r, hvalue, h⟩ := (Option.any_eq_true _ _).1 happly
  obtain ⟨hr, htruthy⟩ := Bool.and_eq_true_iff.1 h
  obtain ⟨m', h⟩ := exists_ok_of_value? hvalue
  obtain ⟨scopes, values, hsession, hv, hw, ha⟩ := session_of_threeOf hthree
  refine ⟨m, scopes, values, v, w, a, r, m', hsession, hv, hw, ha, hequal, h, hr, ?_⟩
  intro m'' hsame
  rw [value?, hsame, Option.any_some, htruthy] at hother
  cases hother

end ClauseLang

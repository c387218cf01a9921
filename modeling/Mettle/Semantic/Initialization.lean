import Mettle.Semantic.CheckerFrame

/-!
# Mettle — reads of uninitialised locals

The tracker marks a local when the checker passes its initialiser or an
assignment to it, and an expression that names an unmarked local is rejected.
The mark is meant to say that every execution that gets here has initialised
the variable. Where it is set for a statement that may not run, the checker
takes it back with a snapshot: after the branches of an `if`, the body of a
loop, the cases of a `switch`. It does not do so everywhere:

* the arms of a `match` statement keep their marks, for the arms after them and
  for what follows the match;
* a deferred statement marks at once what it assigns when its block is left;
* a declaration that is the whole body of an `if` or a `while` stays declared
  and marked after it;
* an assignment to a local that the tracker does not follow (an aggregate or a
  match binding) marks a followed local of the same name further out;
* a call through a local function pointer, and the target of an assignment in
  the increment of a `for`, are not looked at.

`Lasting` says of a body that none of these is used to pass an occurrence.
-/

namespace Mettle.Semantic

open Mettle.Parser Mettle.Lib List

attribute [local simp] occurrences

-- ---
-- Marks that last
-- ---

/-- What holds of the state an action leaves, where it returns. -/
def After {α : Type} (m : Check α) (c : Checker) (P : Checker → Prop) : Prop :=
  ∀ a c', m c = .ok (a, c') → P c'

def CallsMarked (Γ : Context) (c : Checker) (e : Expr) : Prop :=
  ∀ f, (f, true) ∈ occurrences e → Marked Γ c f

def TargetMarked (Γ : Context) (c : Checker) (target : Expr) : Prop :=
  ∀ x callee, (x, callee) ∈ occurrences target → Marked Γ c x

/-- An assignment to a local that is not followed finds no unmarked variable of
that name further out. -/
def MarksOwn (Γ : Context) (c : Checker) (x : Name) : Prop :=
  ∀ t b, Γ.lookup c x = some (.var t b, true) → (t.isAggregate = true ∨ b = true) →
    c.isInitialized x ≠ some false

def LastingInitializer (Γ : Context) (c : Checker) : Option Stmt → Prop
  | some (.varDeclaration _ _ (some e)) => CallsMarked Γ c e
  | some (.assignment x e) => CallsMarked Γ c e ∧ MarksOwn Γ c x
  | some (.targetAssignment target e) => CallsMarked Γ c target ∧ CallsMarked Γ c e
  | some (.expression e) => CallsMarked Γ c e
  | _ => True

def LastingIncrement (Γ : Context) (c : Checker) : Option Stmt → Prop
  | some (.assignment _ e) => CallsMarked Γ c e
  | some (.targetAssignment target e) => TargetMarked Γ c target ∧ CallsMarked Γ c e
  | some (.expression e) => CallsMarked Γ c e
  | _ => True

mutual

/-- No occurrence in the statement is passed by a mark that does not last. -/
def Lasting (Γ : Context) : Stmt → Checker → Prop
  | .varDeclaration _ _ e, c => ∀ e' ∈ e, CallsMarked Γ c e'
  | .assignment x e, c => CallsMarked Γ c e ∧ MarksOwn Γ c x
  | .targetAssignment target e, c => CallsMarked Γ c target ∧ CallsMarked Γ c e
  | .expression e, c => CallsMarked Γ c e
  | .returnStatement e, c => ∀ e' ∈ e, CallsMarked Γ c e'
  | .ifStatement condition thenBranch elseIfs elseBranch, c =>
    CallsMarked Γ c condition ∧
    bareDeclarations (.ifStatement condition thenBranch elseIfs elseBranch) = [] ∧
    After (checkCondition Γ condition) c fun c₀ =>
      Lasting Γ thenBranch c₀ ∧
      After (do checkStatement Γ thenBranch; restoreSnapshot (capture c₀.tracked)) c₀ fun c₁ =>
        LastingElseIfs Γ (capture c₀.tracked) elseIfs c₁ ∧
        After (checkElseIfs Γ (capture c₀.tracked) elseIfs) c₁ fun c₂ =>
          LastingElse Γ elseBranch c₂
  | .whileStatement _ condition body, c =>
    CallsMarked Γ c condition ∧ bareDeclarations body = [] ∧
    After (checkCondition Γ condition) c fun c₀ => Lasting Γ body c₀.enterLoop
  | .forStatement _ initializer condition increment body, c =>
    LastingInitializer Γ c.enterScope initializer ∧
    After (checkForInitializer Γ initializer) c.enterScope fun c₀ =>
      (∀ e ∈ condition, CallsMarked Γ c₀ e) ∧ LastingIncrement Γ c₀ increment ∧
      After (checkForCondition Γ condition) c₀ fun c₁ =>
        After (checkForIncrement Γ increment) c₁ fun c₂ => Lasting Γ body c₂.enterLoop
  | .switchStatement e cases, c =>
    CallsMarked Γ c e ∧
    ∀ t c₀, inferType Γ e c = .ok (t, c₀) →
      LastingCases Γ t (capture c₀.tracked) cases [] c₀.enterSwitch
  | .matchStatement e arms, c =>
    CallsMarked Γ c e ∧
    ∀ t c₀ variants, inferType Γ e c = .ok (t, c₀) → subjectVariants Γ t = .ok variants →
      After (checkArms Γ t.name variants arms [] false) c₀ fun c' =>
        LastingArms Γ t.name variants c₀ c'.tracked arms
  | .deferStatement s, c =>
    Lasting Γ s c ∧ After (checkStatement Γ s) c fun c' => c'.tracked = c.tracked
  | .errdeferStatement s, c =>
    Lasting Γ s c ∧ After (checkStatement Γ s) c fun c' => c'.tracked = c.tracked
  | .block statements, c => LastingStatements Γ statements c.enterScope
  | .breakStatement _, _ => True
  | .continueStatement _, _ => True
  | .inlineAsm _, _ => True

def LastingStatements (Γ : Context) : List Stmt → Checker → Prop
  | [], _ => True
  | s :: rest, c =>
    Lasting Γ s c ∧ After (checkStatement Γ s) c fun c' => LastingStatements Γ rest c'

def LastingElseIfs (Γ : Context) (snapshot : List Bool) : List (Expr × Stmt) → Checker → Prop
  | [], _ => True
  | (condition, body) :: rest, c =>
    CallsMarked Γ c condition ∧
    After (checkCondition Γ condition) c fun c₀ =>
      Lasting Γ body c₀ ∧
      After (do checkStatement Γ body; restoreSnapshot snapshot) c₀ fun c₁ =>
        LastingElseIfs Γ snapshot rest c₁

def LastingElse (Γ : Context) : Option Stmt → Checker → Prop
  | none, _ => True
  | some s, c => Lasting Γ s c

def LastingCases (Γ : Context) (switchType : Ty) (snapshot : List Bool) :
    List (Option Expr × List Stmt) → List Int → Checker → Prop
  | [], _, _ => True
  | (none, body) :: cases, values, c =>
    LastingStatements Γ body c.enterScope ∧
    After (do checkBlock Γ body; restoreSnapshot snapshot) c fun c₁ =>
      LastingCases Γ switchType snapshot cases values c₁
  | (some e, body) :: cases, values, c =>
    ∀ values' c₀, checkCaseValue Γ switchType values e c = .ok (values', c₀) →
      LastingStatements Γ body c₀.enterScope ∧
      After (do checkBlock Γ body; restoreSnapshot snapshot) c₀ fun c₁ =>
        LastingCases Γ switchType snapshot cases values' c₁

/-- Match arms: each one, on its own from the state before the match, is
accepted and leaves the marks that the whole match leaves. -/
def LastingArms (Γ : Context) (typeName : String) (variants : List (Name × Option Ty))
    (c : Checker) (marks : List Tracked) : List (Pattern × List Stmt) → Prop
  | [] => True
  | (pattern, body) :: arms =>
    (∀ covered binding, checkPattern typeName variants [] pattern = .ok (covered, binding) →
      LastingStatements Γ body (bindingScopes binding c).enterScope ∧
      ∃ c', withBinding binding (checkBlock Γ body) c = .ok ((), c') ∧ c'.tracked = marks) ∧
    LastingArms Γ typeName variants c marks arms

end

-- ---
-- Checker and run
-- ---

/-- The variables in the checker's scopes, those of the run and the tracker's entries belong
together, newest first. -/
inductive Agree (initialised : List Nat) : List Bool → Scope → Env → List Tracked → Prop where
  | nil : Agree initialised [] [] [] []
  | followed {mask : List Bool} {vars : Scope} {env : Env} {entries : List Tracked} {x : Name}
      {t : Ty} {cell : Nat} {flag : Bool} (h : Agree initialised mask vars env entries)
      (hFlag : flag = true → cell ∈ initialised) (hAggregate : t.isAggregate = true → flag = true) :
      Agree initialised (true :: mask) ((x, .var t false) :: vars) ((x, cell) :: env)
        (⟨x, flag⟩ :: entries)
  | unfollowed {mask : List Bool} {vars : Scope} {env : Env} {entries : List Tracked} {x : Name}
      {t : Ty} {b : Bool} {cell : Nat} (h : Agree initialised mask vars env entries)
      (hKind : t.isAggregate = true ∨ b = true) (hCell : cell ∈ initialised) :
      Agree initialised (false :: mask) ((x, .var t b) :: vars) ((x, cell) :: env) entries

variable {mask : List Bool} {x : Name} {t : Ty}

section Agree

variable {initialised initialised' : List Nat} {vars : Scope} {env : Env} {entries : List Tracked}

section

variable (h : Agree initialised mask vars env entries)
include h

theorem Agree.mono (hSub : ∀ n ∈ initialised, n ∈ initialised') :
    Agree initialised' mask vars env entries := by
  induction h with
  | nil => exact .nil
  | followed _ hFlag hAggregate ih => exact .followed ih (fun hf => hSub _ (hFlag hf)) hAggregate
  | unfollowed _ hKind hCell ih => exact .unfollowed ih hKind (hSub _ hCell)

theorem Agree.length_vars : vars.length = mask.length := by
  induction h <;> simp_all

theorem Agree.length_env : env.length = mask.length := by
  induction h <;> simp_all

theorem Agree.length_entries : entries.length = mask.count true := by
  induction h <;> simp_all

end

theorem Agree.drop {new : List Bool} (h : Agree initialised (new ++ mask) vars env entries) :
    Agree initialised mask (vars.drop new.length) (env.drop new.length)
      (entries.drop (new.count true)) := by
  induction new generalizing vars env entries with
  | nil => simpa using h
  | cons followed new ih =>
    cases h with
    | followed h hFlag hAggregate => simpa using ih h
    | unfollowed h hKind hCell => simpa using ih h

theorem Agree.lookup_none (h : Agree initialised mask vars env entries)
    (hx : vars.lookup x = none) : env.lookup x = none := by
  induction h with
  | nil => rfl
  | @followed mask vars env entries y t cell flag h hFlag hAggregate ih =>
    by_cases hxy : x = y
    · simp [hxy] at hx
    · have hbeq : (x == y) = false := by simpa using hxy
      simp only [lookup_cons, hbeq] at hx ⊢
      exact ih hx
  | @unfollowed mask vars env entries y t b cell h hKind hCell ih =>
    by_cases hxy : x = y
    · simp [hxy] at hx
    · have hbeq : (x == y) = false := by simpa using hxy
      simp only [lookup_cons, hbeq] at hx ⊢
      exact ih hx

/-- The variable a name stands for: either it is initialised, or it is followed
and the tracker's newest entry of the name is its own. -/
theorem Agree.lookup_var (h : Agree initialised mask vars env entries)
    {b : Bool} (hx : vars.lookup x = some (.var t b)) :
    ∃ cell, env.lookup x = some cell ∧ (cell ∈ initialised ∨ (t.isAggregate = false ∧ b = false ∧
        (entries.find? fun v => v.name == x) = some ⟨x, false⟩)) := by
  induction h with
  | nil => simp at hx
  | @followed mask vars env entries y u cell flag h hFlag hAggregate ih =>
    by_cases hxy : x = y
    · subst hxy
      obtain ⟨rfl, rfl⟩ : u = t ∧ false = b := by simpa using hx
      refine ⟨cell, by simp, ?_⟩
      cases hf : flag with
      | true => exact .inl (hFlag hf)
      | false =>
        have hAgg : u.isAggregate = false := by
          by_contra hne
          simp [hAggregate (by simpa using hne)] at hf
        exact .inr ⟨hAgg, rfl, by simp⟩
    · have hbeq : (x == y) = false := by simpa using hxy
      have hbeq' : (y == x) = false := by simpa using Ne.symm hxy
      simp only [lookup_cons, hbeq] at hx
      obtain ⟨cell', hCell, hOr⟩ := ih hx
      refine ⟨cell', by simpa [lookup_cons, hbeq] using hCell, ?_⟩
      simpa [find?, hbeq'] using hOr
  | @unfollowed mask vars env entries y u b' cell h hKind hCell ih =>
    by_cases hxy : x = y
    · subst hxy
      exact ⟨cell, by simp, .inl hCell⟩
    · have hbeq : (x == y) = false := by simpa using hxy
      simp only [lookup_cons, hbeq] at hx
      obtain ⟨cell', hCell', hOr⟩ := ih hx
      exact ⟨cell', by simpa [lookup_cons, hbeq] using hCell', hOr⟩

theorem setInitialized_of_find
    (h : (entries.find? fun v => v.name == x).map Tracked.initialized ≠ some false) :
    setInitialized x entries = entries := by
  induction entries with
  | nil => rfl
  | cons v rest ih =>
    unfold setInitialized
    by_cases hv : v.name = x
    · have hbeq : (v.name == x) = true := by simpa using hv
      simp only [find?, hbeq, Option.map_some] at h
      have hFlag : v.initialized = true := by
        cases hf : v.initialized with
        | true => rfl
        | false => simp [hf] at h
      rw [if_pos hv]
      obtain ⟨name, flag⟩ := v
      obtain rfl : flag = true := hFlag
      rfl
    · have hbeq : (v.name == x) = false := by simpa using hv
      simp only [find?, hbeq] at h
      rw [if_neg hv, ih h]

/-- **An assignment.** -/
theorem Agree.assign (h : Agree initialised mask vars env entries) {b : Bool}
    {cell : Nat} (hx : vars.lookup x = some (.var t b)) (hCell : env.lookup x = some cell)
    (hOwn : (t.isAggregate = true ∨ b = true) →
      (entries.find? fun v => v.name == x).map Tracked.initialized ≠ some false) :
    Agree (cell :: initialised) mask vars env (setInitialized x entries) := by
  induction h with
  | nil => simp at hx
  | @followed mask vars env entries y u cell' flag h hFlag hAggregate ih =>
    by_cases hxy : x = y
    · subst hxy
      obtain rfl : cell' = cell := by simpa using hCell
      simp only [setInitialized, if_true]
      exact .followed (h.mono fun n hn => mem_cons_of_mem _ hn) (fun _ => by simp) (fun _ => rfl)
    · have hbeq : (x == y) = false := by simpa using hxy
      have hbeq' : (y == x) = false := by simpa using Ne.symm hxy
      simp only [lookup_cons, hbeq] at hx hCell
      simp only [find?, hbeq'] at hOwn
      simp only [setInitialized, if_neg (Ne.symm hxy)]
      exact .followed (ih hx hCell hOwn) (fun hf => mem_cons_of_mem _ (hFlag hf)) hAggregate
  | @unfollowed mask vars env entries y u b' cell' h hKind hCell' ih =>
    by_cases hxy : x = y
    · subst hxy
      obtain ⟨rfl, rfl⟩ : u = t ∧ b' = b := by simpa using hx
      rw [setInitialized_of_find (hOwn hKind)]
      exact .unfollowed (h.mono fun n hn => mem_cons_of_mem _ hn) hKind (mem_cons_of_mem _ hCell')
    · have hbeq : (x == y) = false := by simpa using hxy
      simp only [lookup_cons, hbeq] at hx hCell
      exact .unfollowed (ih hx hCell hOwn) hKind (mem_cons_of_mem _ hCell')

end Agree

/-- The invariant between the state of the checker before a statement and a run
that is about to execute it. -/
structure Agrees (mask : List Bool) (c : Checker) (env : Env) (r : Run) : Prop where
  clean : Clean c.scopes
  agree : Agree r.initialised mask (variablesOf c.scopes) env c.tracked

def Later (r r' : Run) : Prop := ∀ n ∈ r.initialised, n ∈ r'.initialised

theorem Later.refl (r : Run) : Later r r := fun _ h => h

theorem Later.trans {a b c : Run} (h : Later a b) (h' : Later b c) : Later a c :=
  fun n hn => h' n (h n hn)

variable {r' r : Run} {Γ : Context}

section Agrees

variable {c c' : Checker} {env : Env}

section

variable (h : Agrees mask c env r)
include h

theorem Agrees.later (hLater : Later r r') : Agrees mask c env r' :=
  ⟨h.clean, h.agree.mono hLater⟩

theorem Agrees.frame (hClean : Clean c.scopes → Clean c'.scopes)
    (hVars : variablesOf c'.scopes = variablesOf c.scopes) (hTracked : c'.tracked = c.tracked) :
    Agrees mask c' env r :=
  ⟨hClean h.clean, by rw [hVars, hTracked]; exact h.agree⟩

theorem Agrees.inserts (hIns : Inserts c c') : Agrees mask c' env r :=
  h.frame hIns.clean hIns.vars hIns.tracked

theorem Agrees.grows (hGrows : Grows [] c c') (hTracked : c'.tracked = c.tracked) :
    Agrees mask c' env r :=
  h.frame hGrows.clean hGrows.vars_nil hTracked

theorem Agrees.enterScope : Agrees mask c.enterScope env r :=
  ⟨⟨by simp, h.clean⟩, by simpa [Checker.enterScope, variablesOf_cons] using h.agree⟩

/-- The occurrence of a name reads an initialised variable, if it reads a local. -/
def Readable (env : Env) (r : Run) (x : Name) : Prop :=
  ∀ cell, env.lookup x = some cell → cell ∈ r.initialised

/-- **A marked name is readable.** -/
theorem Agrees.readable (hMarked : Marked Γ c x) :
    Readable env r x := by
  intro cell hCell
  cases hl : lookupScopes c.scopes x with
  | none =>
    have hNone := h.agree.lookup_none (variablesOf_lookup_none hl)
    simp [hNone] at hCell
  | some s =>
    cases hs : s.isVariable with
    | false =>
      have hNone := h.agree.lookup_none (h.clean.lookup_none hl hs)
      simp [hNone] at hCell
    | true =>
      cases s with
      | var t b =>
        obtain ⟨cell', hCell', hOr⟩ := h.agree.lookup_var (lookup_variablesOf hl)
        obtain rfl : cell' = cell := by simpa [hCell'] using hCell
        rcases hOr with hIn | ⟨hAgg, rfl, hFind⟩
        · exact hIn
        · have hLocal : Γ.lookup c x = some (.var t false, true) := by
            simp [Context.lookup, hl]
          exact absurd (by simp [Checker.isInitialized, hFind]) (hMarked t hLocal hAgg)
      | _ => simp [Symbol.isVariable] at hs

end

end Agrees

def Stop.isUninitialised : Stop → Prop
  | .uninitialised _ => True
  | .unfinished => False

structure Evaluated (r r' : Run) : Prop where
  later : Later r r'
  deferred : r'.deferred = r.deferred

theorem Evaluated.refl (r : Run) : Evaluated r r := ⟨Later.refl r, rfl⟩

theorem Evaluated.trans {a b c : Run} (h : Evaluated a b) (h' : Evaluated b c) : Evaluated a c :=
  ⟨h.later.trans h'.later, h'.deferred.trans h.deferred⟩

variable {env : Env}

theorem Readable.later (h : Readable env r x) (hLater : Later r r') :
    Readable env r' x :=
  fun cell hCell => hLater _ (h cell hCell)

theorem choose_safe (r : Run) : Safe Stop.isUninitialised choose r fun _ r' => Evaluated r r' := by
  refine Safe.getBind ?_
  split
  · exact Safe.throw fun h => h
  · exact Safe.bind (Q := fun _ r' => Evaluated r r') (Safe.set ⟨fun _ h => h, rfl⟩)
      fun _ _ h => Safe.pure h

theorem readName_safe (h : Readable env r x) :
    Safe Stop.isUninitialised (readName env x) r fun _ r' => Evaluated r r' := by
  refine Safe.getBind ?_
  cases hx : env.lookup x with
  | none => exact Safe.pure (Evaluated.refl r)
  | some cell =>
    dsimp only
    rw [if_pos (h cell hx)]
    exact Safe.pure (Evaluated.refl r)

theorem allocate_safe (initialised : Bool) (r : Run) :
    Safe Stop.isUninitialised (allocate initialised) r fun cell r' =>
      Evaluated r r' ∧ (initialised = true → cell ∈ r'.initialised) := by
  refine Safe.getBind ?_
  refine Safe.bind (Q := fun _ r' => Evaluated r r' ∧ (initialised = true → r.next ∈ r'.initialised))
    (Safe.set ⟨⟨?_, rfl⟩, ?_⟩) fun _ _ h => Safe.pure h
  · intro n hn
    split
    · exact mem_cons_of_mem _ hn
    · exact hn
  · intro h
    simp [h]

theorem assignName_safe (env : Env) (x : Name) (r : Run) :
    Safe Stop.isUninitialised (assignName env x) r fun _ r' =>
      Evaluated r r' ∧ ∀ cell, env.lookup x = some cell → r'.initialised = cell :: r.initialised := by
  unfold assignName
  cases hx : env.lookup x with
  | none => exact Safe.pure ⟨Evaluated.refl r, by simp⟩
  | some cell =>
    refine Safe.modify ⟨⟨fun n hn => mem_cons_of_mem _ hn, rfl⟩, ?_⟩
    rintro cell' hEq
    simp [Option.some.inj hEq]

theorem bindPattern_safe (pattern : Pattern) :
    Safe Stop.isUninitialised (bindPattern env pattern) r fun env' r' =>
      Evaluated r r' ∧ ∀ x, (pattern.binding ≠ some x → Readable env r x) → Readable env' r' x := by
  have hSame : Evaluated r r ∧ ∀ x, (pattern.binding = none) →
      (pattern.binding ≠ some x → Readable env r x) → Readable env r x :=
    ⟨Evaluated.refl r, fun x hNone h => h (by simp [hNone])⟩
  cases pattern with
  | default => exact Safe.pure ⟨hSame.1, fun x h => hSame.2 x rfl h⟩
  | variant v binding =>
    cases binding with
    | none => exact Safe.pure ⟨hSame.1, fun x h => hSame.2 x rfl h⟩
    | some y =>
      refine (allocate_safe true r).bind fun cell r' ⟨hEval, hCell⟩ => Safe.pure ⟨hEval, ?_⟩
      intro x hx cell' hLookup
      by_cases hxy : x = y
      · subst hxy
        obtain rfl : cell = cell' := by simpa using hLookup
        exact hCell rfl
      · have hbeq : (x == y) = false := by simpa using hxy
        simp only [lookup_cons, hbeq] at hLookup
        exact hEval.later _ (hx (by simpa [Pattern.binding] using Ne.symm hxy) cell' hLookup)

mutual

/-- **Evaluation.** -/
theorem evalExpr_safe {env : Env} : ∀ (e : Expr) {r : Run},
    (∀ o ∈ occurrences e, Readable env r o.1) →
    Safe Stop.isUninitialised (evalExpr env e) r fun _ r' => Evaluated r r'
  | .numberLiteral _ _, r, _ => Safe.pure (Evaluated.refl r)
  | .floatLiteral _, r, _ => Safe.pure (Evaluated.refl r)
  | .stringLiteral _, r, _ => Safe.pure (Evaluated.refl r)
  | .newExpression _, r, _ => Safe.pure (Evaluated.refl r)
  | .identifier x, r, h => readName_safe (h (x, false) (by simp))
  | .unaryExpression _ e, r, h => evalExpr_safe e (by simpa using h)
  | .memberAccess object _, r, h => evalExpr_safe object (by simpa using h)
  | .castExpression _ operand, r, h => evalExpr_safe operand (by simpa using h)
  | .binaryExpression l op right, r, h => by
    simp only [occurrences, mem_append] at h
    refine (evalExpr_safe l fun o ho => h o (.inl ho)).bind fun _ r₁ hEval => ?_
    have hRight : ∀ r₂, Evaluated r₁ r₂ →
        Safe Stop.isUninitialised (evalExpr env right) r₂ fun _ r' => Evaluated r r' := by
      intro r₂ hEval'
      have hLater := hEval.trans hEval'
      exact (evalExpr_safe right fun o ho => (h o (.inr ho)).later hLater.later).conseq
        fun _ _ h => hLater.trans h
    split
    · refine (choose_safe r₁).bind fun n r₂ hEval' => ?_
      split
      · exact Safe.pure (hEval.trans hEval')
      · exact hRight r₂ hEval'
    · exact hRight r₁ (Evaluated.refl r₁)
  | .functionCall f arguments, r, h => by
    simp only [evalExpr]
    simp only [occurrences] at h
    split
    · exact Safe.pure (Evaluated.refl r)
    · rename_i hf
      rw [if_neg hf] at h
      refine (readName_safe (h (f, true) (by simp))).bind fun _ r₁ hEval => ?_
      exact (evalArguments_safe arguments fun o ho =>
        (h o (mem_cons_of_mem _ ho)).later hEval.later).conseq fun _ _ h => hEval.trans h
  | .methodCall object f arguments, r, h => by
    simp only [evalExpr]
    simp only [occurrences] at h
    split
    · exact Safe.pure (Evaluated.refl r)
    · rename_i hf
      rw [if_neg hf] at h
      simp only [mem_append] at h
      refine (evalExpr_safe object fun o ho => h o (.inl ho)).bind fun _ r₁ hEval => ?_
      exact (evalArguments_safe arguments fun o ho =>
        (h o (.inr ho)).later hEval.later).conseq fun _ _ h => hEval.trans h
  | .funcPtrCall function arguments, r, h => by
    simp only [occurrences, mem_append] at h
    refine (evalExpr_safe function fun o ho => h o (.inl ho)).bind fun _ r₁ hEval => ?_
    exact (evalArguments_safe arguments fun o ho =>
      (h o (.inr ho)).later hEval.later).conseq fun _ _ h => hEval.trans h
  | .indexExpression array index, r, h => by
    simp only [occurrences, mem_append] at h
    refine (evalExpr_safe array fun o ho => h o (.inl ho)).bind fun _ r₁ hEval => ?_
    exact (evalExpr_safe index fun o ho =>
      (h o (.inr ho)).later hEval.later).conseq fun _ _ h => hEval.trans h
  | .matchExpression subject arms, r, h => by
    simp only [occurrences, mem_append] at h
    refine (evalExpr_safe subject fun o ho => h o (.inl ho)).bind fun _ r₁ hEval => ?_
    refine (choose_safe r₁).bind fun k r₂ hEval' => ?_
    have hLater := hEval.trans hEval'
    exact (evalArm_safe arms k fun o ho => (h o (.inr ho)).later hLater.later).conseq
      fun _ _ h => hLater.trans h

theorem evalArguments_safe {env : Env} : ∀ (arguments : List Expr) {r : Run},
    (∀ o ∈ argumentOccurrences arguments, Readable env r o.1) →
    Safe Stop.isUninitialised (evalArguments env arguments) r fun _ r' => Evaluated r r'
  | [], r, _ => Safe.pure (Evaluated.refl r)
  | e :: rest, r, h => by
    simp only [argumentOccurrences, mem_append] at h
    refine (evalExpr_safe e fun o ho => h o (.inl ho)).bind fun _ r₁ hEval => ?_
    exact (evalArguments_safe rest fun o ho =>
      (h o (.inr ho)).later hEval.later).conseq fun _ _ h => hEval.trans h

theorem evalArm_safe {env : Env} : ∀ (arms : List (Pattern × Expr)) (k : Nat) {r : Run},
    (∀ o ∈ armOccurrences arms, Readable env r o.1) →
    Safe Stop.isUninitialised (evalArm env arms k) r fun _ r' => Evaluated r r'
  | [], _, _, _ => Safe.throw fun h => h
  | (pattern, body) :: _, 0, r, h => by
    simp only [armOccurrences, mem_append, mem_filter] at h
    refine (bindPattern_safe pattern).bind fun env' r₁ ⟨hEval, hRead⟩ => ?_
    refine (evalExpr_safe body fun o ho => hRead o.1 fun hne => ?_).conseq
      fun _ _ h => hEval.trans h
    exact h o (.inl ⟨ho, by simpa using hne⟩)
  | (pattern, body) :: arms, k + 1, r, h => by
    simp only [armOccurrences, mem_append] at h
    exact evalArm_safe arms k fun o ho => h o (.inr ho)

end

-- ---
-- Steps
-- ---

variable {e : Expr}

section Steps

variable {c c' : Checker} {env : Env}

theorem inferType_readable {c₁ : Checker} (hInfer : inferType Γ e c₁ = .ok (t, c'))
    (hCalls : CallsMarked Γ c e) (hIns : Inserts c c₁) (h : Agrees mask c env r) :
    ∀ o ∈ occurrences e, Readable env r o.1 := by
  rintro ⟨x, callee⟩ ho
  cases callee with
  | false => exact (h.inserts hIns).readable ((inferType_observes Γ e c₁ t c' hInfer).2 x ho)
  | true => exact h.readable (hCalls x ho)

theorem inferred_safe (hInfer : inferType Γ e c = .ok (t, c'))
    (hCalls : CallsMarked Γ c e) (h : Agrees mask c env r) :
    Safe Stop.isUninitialised (evalExpr env e) r fun _ r' => Evaluated r r' :=
  evalExpr_safe e (inferType_readable hInfer hCalls (Inserts.refl c) h)

theorem inferType_inserts (h : inferType Γ e c = .ok (t, c')) : Inserts c c' :=
  (inferType_observes Γ e c t c' h).1

theorem checkCondition_run (h : checkCondition Γ e c = .ok ((), c')) :
    ∃ t, inferType Γ e c = .ok (t, c') := by
  simp only [checkCondition, bind_run_ok] at h
  obtain ⟨t, c₁, hInfer, h⟩ := h
  split at h
  · cases pure_run_ok.1 h
    exact ⟨t, hInfer⟩
  · cases throw_run_ok.1 h

theorem restore_capture {tracked tracked' : List Tracked}
    (h : tracked'.map Tracked.name = tracked.map Tracked.name) :
    restore tracked' (capture tracked) = tracked := by
  have hLength : tracked'.length = tracked.length := by
    simpa using congrArg length h
  have hZip : ∀ (l l' : List Tracked), l'.map Tracked.name = l.map Tracked.name →
      zipWith (fun v flag => { v with initialized := flag }) l' (l.map Tracked.initialized) =
        l := by
    intro l
    induction l with
    | nil => intro l' hl'; simp_all
    | cons v l ih =>
      intro l' hl'
      cases l' with
      | nil => simp at hl'
      | cons v' l' =>
        simp_all
  unfold restore capture
  simp only [length_map, hLength, Nat.min_self, Nat.sub_self, take_zero, drop_zero, nil_append]
  exact hZip tracked tracked' h

/-- **A restored branch.** -/
theorem Agrees.restored (h : Agrees mask c env r) (hGrows : Grows [] c c') :
    Agrees mask { c' with tracked := restore c'.tracked (capture c.tracked) } env r :=
  h.frame hGrows.clean hGrows.vars_nil (restore_capture hGrows.names_nil)

/-- **Leaving a scope.** -/
theorem Agrees.exitScope {names : List Name} {new : List Bool} {env' : Env}
    (h : Agrees mask c env r) (hInner : Agrees (new ++ mask) c' env' r')
    (hGrows : Grows names c.enterScope c') (hEnv : env <:+ env') :
    Agrees mask c'.exitScope env r' := by
  obtain ⟨hScopes, -, -⟩ := hGrows.exitScope
  obtain ⟨pushed, rfl⟩ := hEnv
  have hDrop := hInner.agree.drop
  have hPushed : pushed.length = new.length := by
    have hIn := hInner.agree.length_env
    have hOut := h.agree.length_env
    simp only [length_append] at hIn
    omega
  obtain ⟨vars, hVars, -⟩ := hGrows.vars
  have hOuter : variablesOf c.enterScope.scopes = variablesOf c.scopes := by
    simp [Checker.enterScope, variablesOf_cons]
  rw [hOuter] at hVars
  have hNewVars : vars.length = new.length := by
    have hIn := hInner.agree.length_vars
    have hOut := h.agree.length_vars
    rw [hVars] at hIn
    simp only [length_append] at hIn
    omega
  refine ⟨by rw [hScopes]; exact h.clean, ?_⟩
  rw [hVars, ← hNewVars, drop_left, hNewVars, ← hPushed, drop_left] at hDrop
  have hTracked : c'.exitScope.tracked = c'.tracked.drop (new.count true) := by
    show c'.tracked.drop (c'.tracked.length - c'.markers.headD 0) = _
    rw [hGrows.markers]
    show c'.tracked.drop (c'.tracked.length - c.tracked.length) = _
    rw [hInner.agree.length_entries, h.agree.length_entries, count_append, Nat.add_sub_cancel]
  rw [hScopes, hTracked]
  exact hDrop

end Steps

def Ready (Γ : Context) (env : Env) (s : Stmt) (r : Run) : Prop :=
  ∃ mask c c', checkStatement Γ s c = .ok ((), c') ∧ Lasting Γ s c ∧ Agrees mask c env r

/-- Every statement deferred in the current block may run from now on. -/
def DeferredReady (Γ : Context) (r : Run) : Prop :=
  ∀ d ∈ r.deferred, Ready Γ d.1 d.2 r

theorem Ready.later {s : Stmt} (h : Ready Γ env s r) (hLater : Later r r') :
    Ready Γ env s r' := by
  obtain ⟨mask, c, c', hCheck, hLasting, hAgrees⟩ := h
  exact ⟨mask, c, c', hCheck, hLasting, hAgrees.later hLater⟩

theorem DeferredReady.evaluated (h : DeferredReady Γ r) (hEval : Evaluated r r') :
    DeferredReady Γ r' := by
  intro d hd
  rw [hEval.deferred] at hd
  exact (h d hd).later hEval.later

/-- What a statement leaves: the run goes on from a state that agrees with the
checker's, if the statement is left normally. -/
structure Outcome (Γ : Context) (mask : List Bool) (s : Stmt) (c' : Checker) (env : Env) (r : Run)
    (out : Signal × Env) (r' : Run) : Prop where
  later : Later r r'
  ready : DeferredReady Γ r'
  same : bareDeclarations s = [] → out.2 = env
  normal : out.1 = .normal → ∃ new, Agrees (new ++ mask) c' out.2 r' ∧ env <:+ out.2

/-- What a loop, a switch or a branch leaves, whatever the signal. -/
structure Passed (Γ : Context) (r r' : Run) : Prop where
  later : Later r r'
  ready : DeferredReady Γ r'

theorem Passed.trans {a b c : Run} (h : Passed Γ a b) (h' : Passed Γ b c) : Passed Γ a c :=
  ⟨h.later.trans h'.later, h'.ready⟩

theorem Evaluated.passed (h : Evaluated r r') (hReady : DeferredReady Γ r) :
    Passed Γ r r' :=
  ⟨h.later, hReady.evaluated h⟩

theorem Outcome.of_passed {s : Stmt} {c' : Checker} {signal : Signal}
    (h : Passed Γ r r') (hNormal : signal = .normal → Agrees mask c' env r') :
    Outcome Γ mask s c' env r (signal, env) r' :=
  ⟨h.later, h.ready, fun _ => rfl, fun hs => ⟨[], hNormal hs, suffix_refl env⟩⟩

/-- What has to hold of the runs of at most `fuel` steps. -/
structure SoundAt (Γ : Context) (fuel : Nat) : Prop where
  statement : ∀ {s : Stmt} {c c' : Checker} {mask : List Bool} {env : Env} {r : Run},
    checkStatement Γ s c = .ok ((), c') → Lasting Γ s c → Agrees mask c env r →
    DeferredReady Γ r →
    Safe Stop.isUninitialised (execStatement Γ fuel env s) r (Outcome Γ mask s c' env r)
  statements : ∀ {l : List Stmt} {c c' : Checker} {mask : List Bool} {env : Env} {r : Run},
    checkStatements Γ l c = .ok ((), c') → LastingStatements Γ l c → Agrees mask c env r →
    DeferredReady Γ r →
    Safe Stop.isUninitialised (execStatements Γ fuel env l) r fun signal r' => Passed Γ r r' ∧
      (signal = .normal → ∃ new env', Agrees (new ++ mask) c' env' r' ∧ env <:+ env')
  block : ∀ {l : List Stmt} {c c' : Checker} {mask : List Bool} {env : Env} {r : Run},
    checkBlock Γ l c = .ok ((), c') → LastingStatements Γ l c.enterScope → Agrees mask c env r →
    DeferredReady Γ r →
    Safe Stop.isUninitialised (execBlock Γ fuel env l) r fun signal r' => Passed Γ r r' ∧
      (signal = .normal → Agrees mask c' env r')
  deferred : ∀ {l : List (Env × Stmt)} {r : Run}, (∀ d ∈ l, Ready Γ d.1 d.2 r) → DeferredReady Γ r →
    Safe Stop.isUninitialised (execDeferred Γ fuel l) r fun _ r' => Passed Γ r r'
  elseIfs : ∀ {l : List (Expr × Stmt)} {s : Option Stmt} {c c₁ c₂ : Checker} {mask : List Bool}
    {env : Env} {r : Run}, checkElseIfs Γ (capture c.tracked) l c = .ok ((), c₁) →
    checkElse Γ s c₁ = .ok ((), c₂) → LastingElseIfs Γ (capture c.tracked) l c →
    LastingElse Γ s c₁ → bareElseIfs l = [] → bareElse s = [] → Agrees mask c env r →
    DeferredReady Γ r →
    Safe Stop.isUninitialised (execElseIfs Γ fuel env l s) r fun out r' =>
      Passed Γ r r' ∧ out.2 = env
  loop : ∀ {label : Option Name} {condition : Expr} {body : Stmt} {c c₀ c₁ : Checker}
    {mask : List Bool} {env : Env} {r : Run}, CallsMarked Γ c condition →
    checkCondition Γ condition c = .ok ((), c₀) →
    checkStatement Γ body c₀.enterLoop = .ok ((), c₁) → Lasting Γ body c₀.enterLoop →
    bareDeclarations body = [] → Agrees mask c env r → DeferredReady Γ r →
    Safe Stop.isUninitialised (execWhile Γ fuel env env label condition body) r fun out r' =>
      Passed Γ r r' ∧ out.2 = env
  forLoop : ∀ {label : Option Name} {condition : Option Expr} {increment : Option Stmt}
    {body : Stmt} {c c₁ c₂ c₃ : Checker} {mask : List Bool} {env : Env} {r : Run},
    (∀ e ∈ condition, CallsMarked Γ c e) → LastingIncrement Γ c increment →
    checkForCondition Γ condition c = .ok ((), c₁) →
    checkForIncrement Γ increment c₁ = .ok ((), c₂) →
    checkStatement Γ body c₂.enterLoop = .ok ((), c₃) → Lasting Γ body c₂.enterLoop →
    Agrees mask c env r → DeferredReady Γ r →
    Safe Stop.isUninitialised (execFor Γ fuel env label condition increment body) r
      fun _ r' => Passed Γ r r'
  cases : ∀ {l : List (Option Expr × List Stmt)} {mask : List Bool} {env : Env} {r : Run},
    (∀ k ∈ l, ∃ c c', checkBlock Γ k.2 c = .ok ((), c') ∧
      LastingStatements Γ k.2 c.enterScope ∧ Agrees mask c env r) →
    DeferredReady Γ r →
    Safe Stop.isUninitialised (execCases Γ fuel env l) r fun _ r' => Passed Γ r r'

theorem soundAt_zero (Γ : Context) : SoundAt Γ 0 where
  statement _ _ _ _ := by
    exact Safe.throw fun h => h
  statements _ _ _ _ := by
    exact Safe.throw fun h => h
  block _ _ _ _ := by
    exact Safe.throw fun h => h
  deferred _ _ := by
    exact Safe.throw fun h => h
  elseIfs _ _ _ _ _ _ _ _ := by
    exact Safe.throw fun h => h
  loop _ _ _ _ _ _ _ := by
    exact Safe.throw fun h => h
  forLoop _ _ _ _ _ _ _ _ := by
    exact Safe.throw fun h => h
  cases _ _ := by
    exact Safe.throw fun h => h

variable {typeName : String} {initializer : Option Stmt}

section Sound

variable {fuel : Nat} {c c' : Checker} {env : Env}

section

variable (hSound : SoundAt Γ fuel)
include hSound

theorem SoundAt.statements_succ {l : List Stmt} (hCheck : checkStatements Γ l c = .ok ((), c'))
    (hLasting : LastingStatements Γ l c) (h : Agrees mask c env r) (hReady : DeferredReady Γ r) :
    Safe Stop.isUninitialised (execStatements Γ (fuel + 1) env l) r fun signal r' =>
      Passed Γ r r' ∧
        (signal = .normal → ∃ new env', Agrees (new ++ mask) c' env' r' ∧ env <:+ env') := by
  cases l with
  | nil =>
    cases pure_run_ok.1 hCheck
    exact Safe.pure ⟨⟨Later.refl r, hReady⟩, fun _ => ⟨[], env, h, suffix_refl env⟩⟩
  | cons s rest =>
    simp only [checkStatements, bind_run_ok] at hCheck
    obtain ⟨_, c₁, hFirst, hRest⟩ := hCheck
    obtain ⟨hLast, hAfter⟩ := hLasting
    simp only [execStatements]
    refine (hSound.statement hFirst hLast h hReady).bind fun out r₁ hOut => ?_
    split
    · rename_i hNormal
      obtain ⟨new, hAgrees, hEnv⟩ := hOut.normal hNormal
      refine (hSound.statements hRest (hAfter _ _ hFirst) hAgrees hOut.ready).conseq ?_
      rintro signal r₂ ⟨hPassed, hNext⟩
      refine ⟨⟨hOut.later.trans hPassed.later, hPassed.ready⟩, fun hSignal => ?_⟩
      obtain ⟨new', env', hAgrees', hEnv'⟩ := hNext hSignal
      exact ⟨new' ++ new, env', by simpa using hAgrees', hEnv.trans hEnv'⟩
    · rename_i hSignal
      exact Safe.pure ⟨⟨hOut.later, hOut.ready⟩, fun hNormal => absurd hNormal hSignal⟩

theorem SoundAt.deferred_succ {l : List (Env × Stmt)} (hList : ∀ d ∈ l, Ready Γ d.1 d.2 r)
    (hReady : DeferredReady Γ r) :
    Safe Stop.isUninitialised (execDeferred Γ (fuel + 1) l) r fun _ r' => Passed Γ r r' := by
  cases l with
  | nil =>
    exact Safe.pure ⟨Later.refl r, hReady⟩
  | cons d rest =>
    obtain ⟨env', s⟩ := d
    refine (choose_safe r).bind fun n r₁ hEval => ?_
    have hReady₁ := hReady.evaluated hEval
    have hRest : ∀ r₂, Passed Γ r₁ r₂ →
        Safe Stop.isUninitialised (execDeferred Γ fuel rest) r₂ fun _ r' => Passed Γ r r' := by
      intro r₂ hPassed
      have hLater := hEval.later.trans hPassed.later
      exact (hSound.deferred (fun d hd => (hList d (mem_cons_of_mem _ hd)).later hLater)
        hPassed.ready).conseq fun _ _ h => ⟨hLater.trans h.later, h.ready⟩
    split
    · exact hRest r₁ ⟨Later.refl r₁, hReady₁⟩
    · obtain ⟨mask', c₁, c₂, hCheck, hLasting, hAgrees⟩ := hList (env', s) (by simp)
      refine (hSound.statement hCheck hLasting (hAgrees.later hEval.later) hReady₁).bind
        fun _ r₂ hOut => ?_
      exact hRest r₂ ⟨hOut.later, hOut.ready⟩

theorem SoundAt.block_succ {l : List Stmt} (hCheck : checkBlock Γ l c = .ok ((), c'))
    (hLasting : LastingStatements Γ l c.enterScope) (h : Agrees mask c env r)
    (hReady : DeferredReady Γ r) :
    Safe Stop.isUninitialised (execBlock Γ (fuel + 1) env l) r fun signal r' => Passed Γ r r' ∧
      (signal = .normal → Agrees mask c' env r') := by
  simp only [checkBlock, bind_run_ok, modify_run_ok, Prod.mk.injEq] at hCheck
  obtain ⟨_, _, ⟨-, rfl⟩, _, c₁, hStatements, -, rfl⟩ := hCheck
  have hGrows := checkStatements_declares Γ l _ _ _ hStatements
  -- The block starts with nothing deferred and puts the outer statements back.
  refine Safe.getBind (Safe.bind (Q := fun _ r₁ => r₁ = { r with deferred := [] })
    (Safe.modify rfl) ?_)
  rintro _ r₁ rfl
  have hInner : Agrees mask c.enterScope env { r with deferred := [] } :=
    h.enterScope.later fun _ h => h
  refine (hSound.statements hStatements hLasting hInner (by simp [DeferredReady])).bind ?_
  rintro signal r₂ ⟨hPassed, hNormal⟩
  refine Safe.getBind (Safe.bind (Q := fun _ r₃ => r₃ = { r₂ with deferred := [] })
    (Safe.modify rfl) ?_)
  rintro _ r₃ rfl
  refine (hSound.deferred (r := { r₂ with deferred := [] })
    (fun d hd => (hPassed.ready d hd).later fun _ h => h) (by simp [DeferredReady])).bind ?_
  rintro _ r₄ hDeferred
  refine Safe.bind (Q := fun _ r₅ => r₅ = { r₄ with deferred := r.deferred }) (Safe.modify rfl) ?_
  rintro _ r₅ rfl
  have hLater : Later r r₄ := fun n hn => hDeferred.later n (hPassed.later n hn)
  refine Safe.pure ⟨⟨hLater, fun d hd => (hReady d hd).later hLater⟩, fun hSignal => ?_⟩
  obtain ⟨new, env', hAgrees, hEnv⟩ := hNormal hSignal
  have hLeft : Agrees (new ++ mask) c₁ env' { r₄ with deferred := r.deferred } :=
    hAgrees.later fun n hn => hDeferred.later n hn
  exact h.exitScope hLeft hGrows hEnv

theorem SoundAt.cases_succ {l : List (Option Expr × List Stmt)}
    (hList : ∀ k ∈ l, ∃ c c', checkBlock Γ k.2 c = .ok ((), c') ∧ LastingStatements Γ k.2
      c.enterScope ∧ Agrees mask c env r) (hReady : DeferredReady Γ r) :
    Safe Stop.isUninitialised (execCases Γ (fuel + 1) env l) r fun _ r' => Passed Γ r r' := by
  cases l with
  | nil =>
    exact Safe.pure ⟨Later.refl r, hReady⟩
  | cons k rest =>
    obtain ⟨value, body⟩ := k
    obtain ⟨c₁, c₂, hCheck, hLasting, hAgrees⟩ := hList (value, body) (by simp)
    refine (hSound.block hCheck hLasting hAgrees hReady).bind ?_
    rintro signal r₁ ⟨hPassed, -⟩
    split
    · have hRest : ∀ k ∈ rest, ∃ c c', checkBlock Γ k.2 c = .ok ((), c') ∧
          LastingStatements Γ k.2 c.enterScope ∧ Agrees mask c env r₁ := by
        intro k hk
        obtain ⟨d, d', hd, hd', hd''⟩ := hList k (mem_cons_of_mem _ hk)
        exact ⟨d, d', hd, hd', hd''.later hPassed.later⟩
      exact (hSound.cases hRest hPassed.ready).conseq
        fun _ _ h => ⟨hPassed.later.trans h.later, h.ready⟩
    · exact Safe.pure hPassed

end

theorem skipDeclarations_nil_safe {env : Env} {Q : Env → Run → Prop} (h : Q env r) :
    Safe Stop.isUninitialised (skipDeclarations Γ [] env) r Q :=
  Safe.pure h

variable {c₁ c₂ : Checker}

theorem SoundAt.elseIfs_succ (hSound : SoundAt Γ fuel) {l : List (Expr × Stmt)} {s : Option Stmt}
    (hClauses : checkElseIfs Γ (capture c.tracked) l c = .ok ((), c₁))
    (hElse : checkElse Γ s c₁ = .ok ((), c₂)) (hLasting : LastingElseIfs Γ (capture c.tracked) l c)
    (hLastingElse : LastingElse Γ s c₁) (hBare : bareElseIfs l = []) (hBareElse : bareElse s = [])
    (h : Agrees mask c env r) (hReady : DeferredReady Γ r) :
    Safe Stop.isUninitialised (execElseIfs Γ (fuel + 1) env l s) r fun out r' =>
      Passed Γ r r' ∧ out.2 = env := by
  cases l with
  | nil =>
    cases pure_run_ok.1 hClauses
    cases s with
    | none =>
      exact Safe.pure ⟨⟨Later.refl r, hReady⟩, rfl⟩
    | some s =>
      exact (hSound.statement hElse hLastingElse h hReady).conseq
        fun out r' hOut => ⟨⟨hOut.later, hOut.ready⟩, hOut.same hBareElse⟩
  | cons clause rest =>
    obtain ⟨condition, body⟩ := clause
    simp only [bareElseIfs, append_eq_nil_iff] at hBare
    simp only [checkElseIfs, bind_run_ok] at hClauses
    obtain ⟨_, d₀, hCond, _, d₁, hBody, _, d₂, hRestore, hRest⟩ := hClauses
    obtain ⟨hCalls, hLasting⟩ := hLasting
    obtain ⟨hLastingBody, hLastingRest⟩ := hLasting _ _ hCond
    obtain ⟨t, hInfer⟩ := checkCondition_run hCond
    have hIns := inferType_inserts hInfer
    have hGrows : Grows [] d₀ d₁ := by
      simpa [bareNames, hBare.1] using checkStatement_declares Γ body _ _ _ hBody
    have hAfter := hLastingRest () d₂ (bind_run_ok.2 ⟨_, _, hBody, hRestore⟩)
    cases modify_run_ok.1 hRestore
    rw [show capture c.tracked = capture d₀.tracked by rw [hIns.tracked]] at hRest hAfter
    have hTracked : restore d₁.tracked (capture d₀.tracked) = d₀.tracked :=
      restore_capture hGrows.names_nil
    refine (inferred_safe hInfer hCalls h).bind fun _ r₁ hEval => ?_
    refine (choose_safe r₁).bind fun n r₂ hEval' => ?_
    have hEval₂ := hEval.trans hEval'
    have hAgrees := (h.inserts hIns).later hEval₂.later
    split
    · rw [hBare.1]
      refine (skipDeclarations_nil_safe (Q := fun env' r' => env' = env ∧ r' = r₂) ⟨rfl, rfl⟩).bind ?_
      rintro _ _ ⟨rfl, rfl⟩
      refine (hSound.elseIfs (c := { d₁ with tracked := restore d₁.tracked (capture d₀.tracked) })
        (by rw [hTracked]; rw [hTracked] at hRest; exact hRest) hElse
        (by rw [hTracked]; rw [hTracked] at hAfter; exact hAfter) hLastingElse hBare.2 hBareElse
        (hAgrees.restored hGrows) (hReady.evaluated hEval₂)).conseq ?_
      rintro out r' ⟨hPassed, hEnv⟩
      exact ⟨⟨hEval₂.later.trans hPassed.later, hPassed.ready⟩, hEnv⟩
    · refine (hSound.statement hBody hLastingBody hAgrees (hReady.evaluated hEval₂)).bind
        fun out r₃ hOut => ?_
      rw [hBare.2, hBareElse]
      refine (skipDeclarations_nil_safe (Q := fun env' r' => env' = out.2 ∧ r' = r₃)
        ⟨rfl, rfl⟩).bind ?_
      rintro _ _ ⟨rfl, rfl⟩
      exact Safe.pure ⟨⟨hEval₂.later.trans hOut.later, hOut.ready⟩, hOut.same hBare.1⟩

theorem Agrees.enterLoop (h : Agrees mask c env r) : Agrees mask c.enterLoop env r :=
  h.frame id rfl rfl

variable {label : Option Name} {body : Stmt}

theorem SoundAt.loop_succ (hSound : SoundAt Γ fuel) {condition : Expr} {c₀ : Checker}
    (hCalls : CallsMarked Γ c condition) (hCond : checkCondition Γ condition c = .ok ((), c₀))
    (hBody : checkStatement Γ body c₀.enterLoop = .ok ((), c₁))
    (hLasting : Lasting Γ body c₀.enterLoop) (hBare : bareDeclarations body = [])
    (h : Agrees mask c env r) (hReady : DeferredReady Γ r) :
    Safe Stop.isUninitialised (execWhile Γ (fuel + 1) env env label condition body) r
      fun out r' => Passed Γ r r' ∧ out.2 = env := by
  obtain ⟨t, hInfer⟩ := checkCondition_run hCond
  have hIns := inferType_inserts hInfer
  simp only [execWhile]
  refine (inferred_safe hInfer hCalls h).bind fun _ r₁ hEval => ?_
  refine (choose_safe r₁).bind fun n r₂ hEval' => ?_
  have hEval₂ := hEval.trans hEval'
  have hReady₂ := hReady.evaluated hEval₂
  split
  · exact Safe.pure ⟨⟨hEval₂.later, hReady₂⟩, rfl⟩
  · have hHead := h.later hEval₂.later
    refine (hSound.statement hBody hLasting (hHead.inserts hIns).enterLoop hReady₂).bind
      fun out r₃ hOut => ?_
    have hEnv : out.2 = env := hOut.same hBare
    have hPassed : Passed Γ r r₃ := ⟨hEval₂.later.trans hOut.later, hOut.ready⟩
    split
    · exact Safe.pure ⟨hPassed, hEnv⟩
    · rw [hEnv]
      refine (hSound.loop hCalls hCond hBody hLasting hBare (h.later hPassed.later)
        hPassed.ready).conseq ?_
      rintro out' r₄ ⟨hPassed', hEnv'⟩
      exact ⟨hPassed.trans hPassed', hEnv'⟩

variable {condition : Option Expr}

theorem checkForCondition_inserts (h : checkForCondition Γ condition c = .ok ((), c')) :
    Inserts c c' := by
  cases condition with
  | none =>
    cases pure_run_ok.1 h
    exact Inserts.refl c
  | some e =>
    obtain ⟨t, hInfer⟩ := checkCondition_run h
    exact inferType_inserts hInfer

theorem forCondition_safe (hCalls : ∀ e ∈ condition, CallsMarked Γ c e)
    (hCheck : checkForCondition Γ condition c = .ok ((), c')) (h : Agrees mask c env r) :
    Safe Stop.isUninitialised (evalOptional env condition) r fun _ r' => Evaluated r r' := by
  cases condition with
  | none => exact Safe.pure (Evaluated.refl r)
  | some e =>
    obtain ⟨t, hInfer⟩ := checkCondition_run hCheck
    exact inferred_safe hInfer (hCalls e rfl) h

variable {increment : Option Stmt}

theorem increment_safe (hLasting : LastingIncrement Γ c increment) (hIns : Inserts c c₁)
    (hCheck : checkForIncrement Γ increment c₁ = .ok ((), c₂)) (h : Agrees mask c env r) :
    Safe Stop.isUninitialised (execForInitializer Γ env increment) r fun _ r' => Evaluated r r' := by
  unfold checkForIncrement at hCheck
  split at hCheck
  · exact Safe.pure (Evaluated.refl r)
  · obtain ⟨t, c₃, hInfer, -⟩ := bind_run_ok.1 hCheck
    refine (evalExpr_safe _ (inferType_readable hInfer hLasting hIns h)).bind fun _ r₁ hEval => ?_
    refine (assignName_safe env _ r₁).bind ?_
    rintro _ r₂ ⟨hEval', -⟩
    exact Safe.pure (hEval.trans hEval')
  · obtain ⟨t, c₃, hInfer, -⟩ := bind_run_ok.1 hCheck
    refine (evalExpr_safe _ (inferType_readable hInfer hLasting.2 hIns h)).bind
      fun _ r₁ hEval => ?_
    refine (evalExpr_safe _ ?_).bind fun _ r₂ hEval' => Safe.pure (hEval.trans hEval')
    rintro ⟨x, callee⟩ ho
    exact (h.readable (hLasting.1 x callee ho)).later hEval.later
  · obtain ⟨t, c₃, hInfer, -⟩ := bind_run_ok.1 hCheck
    exact (evalExpr_safe _ (inferType_readable hInfer hLasting hIns h)).bind
      fun _ r₁ hEval => Safe.pure hEval
  · cases throw_run_ok.1 hCheck

theorem checkForIncrement_inserts (h : checkForIncrement Γ increment c = .ok ((), c')) :
    Inserts c c' := by
  unfold checkForIncrement at h
  split at h
  · cases pure_run_ok.1 h
    exact Inserts.refl c
  · obtain ⟨t, c₃, hInfer, hPure⟩ := bind_run_ok.1 h
    cases pure_run_ok.1 hPure
    exact inferType_inserts hInfer
  · obtain ⟨t, c₃, hInfer, hPure⟩ := bind_run_ok.1 h
    cases pure_run_ok.1 hPure
    exact inferType_inserts hInfer
  · obtain ⟨t, c₃, hInfer, hPure⟩ := bind_run_ok.1 h
    cases pure_run_ok.1 hPure
    exact inferType_inserts hInfer
  · cases throw_run_ok.1 h

theorem SoundAt.forTurn (hSound : SoundAt Γ fuel) {c₃ : Checker}
    (hCalls : ∀ e ∈ condition, CallsMarked Γ c e) (hIncrement : LastingIncrement Γ c increment)
    (hCond : checkForCondition Γ condition c = .ok ((), c₁))
    (hStep : checkForIncrement Γ increment c₁ = .ok ((), c₂))
    (hBody : checkStatement Γ body c₂.enterLoop = .ok ((), c₃))
    (hLasting : Lasting Γ body c₂.enterLoop) (h : Agrees mask c env r) (hReady : DeferredReady Γ r)
    (hEval : Evaluated r r₁) :
    Safe Stop.isUninitialised (do
      let __discr ← execStatement Γ fuel env body
      match leavesLoop label __discr.1 with
      | some out => pure out
      | none => do
        let _ ← execForInitializer Γ env increment
        execFor Γ fuel env label condition increment body) r₁ fun _ r' => Passed Γ r r' := by
  have hIns := checkForCondition_inserts hCond
  have hIns' := hIns.trans (checkForIncrement_inserts hStep)
  refine (hSound.statement hBody hLasting
    ((h.later hEval.later).inserts hIns').enterLoop (hReady.evaluated hEval)).bind
    fun out r₂ hOut => ?_
  have hPassed : Passed Γ r r₂ := ⟨hEval.later.trans hOut.later, hOut.ready⟩
  split
  · exact Safe.pure hPassed
  · refine (increment_safe hIncrement hIns hStep (h.later hPassed.later)).bind
      fun _ r₃ hEval' => ?_
    have hPassed' := hPassed.trans (hEval'.passed hPassed.ready)
    exact (hSound.forLoop hCalls hIncrement hCond hStep hBody hLasting (h.later hPassed'.later)
      hPassed'.ready).conseq fun _ _ h => hPassed'.trans h

theorem SoundAt.forLoop_succ (hSound : SoundAt Γ fuel) {c₃ : Checker}
    (hCalls : ∀ e ∈ condition, CallsMarked Γ c e) (hIncrement : LastingIncrement Γ c increment)
    (hCond : checkForCondition Γ condition c = .ok ((), c₁))
    (hStep : checkForIncrement Γ increment c₁ = .ok ((), c₂))
    (hBody : checkStatement Γ body c₂.enterLoop = .ok ((), c₃))
    (hLasting : Lasting Γ body c₂.enterLoop) (h : Agrees mask c env r)
    (hReady : DeferredReady Γ r) :
    Safe Stop.isUninitialised (execFor Γ (fuel + 1) env label condition increment body) r
      fun _ r' => Passed Γ r r' := by
  refine (forCondition_safe hCalls hCond h).bind fun _ r₁ hEval => ?_
  refine (choose_safe r₁).bind fun n r₂ hEval' => ?_
  have hEval₂ := hEval.trans hEval'
  split
  · exact Safe.pure (hEval₂.passed hReady)
  · exact hSound.forTurn hCalls hIncrement hCond hStep hBody hLasting h hReady hEval₂

theorem resolveType_run {text message : String} (h : resolveType Γ text message c = .ok (t, c')) :
    ∃ instances, Γ.typeNamed text = some (t, instances) := by
  simp only [resolveType, bind_run_ok, get_run_ok, Prod.mk.injEq] at h
  obtain ⟨_, _, ⟨rfl, rfl⟩, h⟩ := h
  cases hType : Γ.typeByName c text with
  | none =>
    rw [hType] at h
    cases throw_run_ok.1 h
  | some q =>
    rw [hType] at h
    obtain ⟨_, _, -, rfl, -⟩ := h
    unfold Context.typeByName at hType
    split at hType
    · cases hType
    · obtain ⟨p, hp, hq⟩ := Option.map_eq_some_iff.1 hType
      exact ⟨p.2, by rw [hp, ← hq]⟩

theorem isAggregateText_of_declaredType {typeName : Option String} {annotated : Option Ty}
    (hAnnotated : resolveAnnotated Γ typeName c = .ok (annotated, c₁))
    (hType : declaredType Γ x annotated none c₁ = .ok (t, c')) :
    isAggregateText Γ typeName = t.isAggregate := by
  cases typeName with
  | none =>
    cases pure_run_ok.1 hAnnotated
    cases throw_run_ok.1 hType
  | some text =>
    obtain ⟨u, c₂, hResolve, hPure⟩ := bind_run_ok.1 hAnnotated
    cases pure_run_ok.1 hPure
    cases pure_run_ok.1 hType
    obtain ⟨instances, hNamed⟩ := resolveType_run hResolve
    simp [isAggregateText, hNamed]

theorem evalOptional_safe {e : Option Expr}
    (h : ∀ o ∈ e.toList.flatMap occurrences, Readable env r o.1) :
    Safe Stop.isUninitialised (evalOptional env e) r fun _ r' => Evaluated r r' := by
  cases e with
  | none => exact Safe.pure (Evaluated.refl r)
  | some e => exact evalExpr_safe e (by simpa using h)

theorem declaration_safe {typeName : Option String} {initializer : Option Expr}
    (hCheck : processVarDeclaration Γ x typeName initializer c = .ok ((), c'))
    (hCalls : ∀ e ∈ initializer, CallsMarked Γ c e) (h : Agrees mask c env r) :
    Safe Stop.isUninitialised (do
      evalOptional env initializer
      allocate (initializer.isSome || isAggregateText Γ typeName)) r fun cell r' =>
        Evaluated r r' ∧ ∃ followed, Agrees (followed :: mask) c' ((x, cell) :: env) r' := by
  simp only [processVarDeclaration, bind_run_ok] at hCheck
  obtain ⟨annotated, c₁, hAnnotated, t, c₂, hType, _, c₃, hDeclare, hTrack⟩ := hCheck
  have hIns := (resolveAnnotated_observes Γ typeName c annotated c₁ hAnnotated).1
  obtain ⟨hIns', hMarks⟩ := declaredType_observes Γ x annotated initializer c₁ t c₂ hType
  have hAgrees : Agrees mask c₂ env r := (h.inserts hIns).inserts hIns'
  obtain ⟨hVars, hClean, -, hTracked, -⟩ := declareVariable_run hDeclare
  refine (evalOptional_safe ?_).bind fun _ r₁ hEval => ?_
  · rintro ⟨y, callee⟩ ho
    cases callee with
    | false => exact (h.inserts hIns).readable (hMarks y ho)
    | true =>
      obtain ⟨e, he, ho⟩ := mem_flatMap.1 ho
      exact h.readable (hCalls e (by simpa using he) y ho)
  · refine (allocate_safe _ r₁).conseq ?_
    rintro cell r₂ ⟨hEval', hCell⟩
    have hLater := hEval.trans hEval'
    have hOuter := (hAgrees.later hLater.later).agree
    refine ⟨hLater, ?_⟩
    cases hAgg : t.isAggregate with
    | true =>
      rw [if_pos hAgg] at hTrack
      cases pure_run_ok.1 hTrack
      refine ⟨false, hClean hAgrees.clean, ?_⟩
      rw [hVars, hTracked]
      refine .unfollowed hOuter (.inl hAgg) (hCell ?_)
      cases initializer with
      | some e => rfl
      | none => simp [isAggregateText_of_declaredType hAnnotated hType, hAgg]
    | false =>
      rw [if_neg (by simp [hAgg])] at hTrack
      cases modify_run_ok.1 hTrack
      refine ⟨true, hClean hAgrees.clean, ?_⟩
      show Agree _ _ (variablesOf c₃.scopes) _ (⟨x, initializer.isSome⟩ :: c₃.tracked)
      rw [hVars, hTracked]
      exact .followed hOuter (fun hInit => hCell (by simp [hInit])) (fun h => by simp [hAgg] at h)

theorem lookupScopes_of_lookup {s : Symbol} (h : Γ.lookup c x = some (s, true)) :
    lookupScopes c.scopes x = some s := by
  unfold Context.lookup at h
  cases hl : lookupScopes c.scopes x with
  | none => simp [hl] at h
  | some s' => simpa [hl] using h

theorem assignment_safe {value : Expr} (hCheck : processAssignment Γ x value c = .ok ((), c'))
    (hCalls : CallsMarked Γ c value) (hOwn : MarksOwn Γ c x) (h : Agrees mask c env r) :
    Safe Stop.isUninitialised (do
      evalExpr env value
      assignName env x) r fun _ r' => Evaluated r r' ∧ Agrees mask c' env r' := by
  obtain ⟨_, _, hGet, hCheck⟩ := bind_run_ok.1 hCheck
  cases get_run_ok.1 hGet
  rcases hl : Γ.lookup c x with _ | ⟨s, isLocal⟩
  · rw [hl] at hCheck
    cases throw_run_ok.1 hCheck
  rw [hl] at hCheck
  cases s with
  | var t b =>
    simp only [bind_run_ok, lift_run_ok, Prod.mk.injEq] at hCheck
    obtain ⟨u, c₁, hInfer, _, _, ⟨_, -, -, rfl⟩, hMark⟩ := hCheck
    have hIns := inferType_inserts hInfer
    refine (inferred_safe hInfer hCalls h).bind fun _ r₁ hEval => ?_
    refine (assignName_safe env x r₁).conseq ?_
    rintro _ r₂ ⟨hEval', hAssigned⟩
    have hAgrees := (h.inserts hIns).later hEval.later
    refine ⟨hEval.trans hEval', ?_⟩
    cases isLocal with
    | false =>
      cases pure_run_ok.1 hMark
      exact hAgrees.later hEval'.later
    | true =>
      cases modify_run_ok.1 hMark
      have hVar : (variablesOf c₁.scopes).lookup x = some (.var t b) := by
        rw [hIns.vars]
        exact lookup_variablesOf (lookupScopes_of_lookup hl)
      obtain ⟨cell, hCell, -⟩ := hAgrees.agree.lookup_var hVar
      refine ⟨hAgrees.clean, ?_⟩
      rw [hAssigned cell hCell]
      refine hAgrees.agree.assign hVar hCell fun hKind => ?_
      rw [hIns.tracked]
      exact hOwn t b hl hKind
  | typeSymbol type => cases type <;> cases throw_run_ok.1 hCheck
  | _ => cases throw_run_ok.1 hCheck

theorem targetAssignment_safe {target value : Expr}
    (hCheck : processTargetAssignment Γ target value c = .ok ((), c'))
    (hTarget : CallsMarked Γ c target) (hCalls : CallsMarked Γ c value)
    (h : Agrees mask c env r) :
    Safe Stop.isUninitialised (do
      evalExpr env value
      evalExpr env target) r fun _ r' => Evaluated r r' := by
  have hMarks := (processTargetAssignment_observes Γ target value c _ c' hCheck).2
  simp only [mem_append] at hMarks
  refine (evalExpr_safe value ?_).bind fun _ r₁ hEval => ?_
  · rintro ⟨y, callee⟩ ho
    cases callee with
    | false => exact h.readable (hMarks y (.inr ho))
    | true => exact h.readable (hCalls y ho)
  · refine (evalExpr_safe target ?_).conseq fun _ _ hEval' => hEval.trans hEval'
    rintro ⟨y, callee⟩ ho
    cases callee with
    | false => exact (h.readable (hMarks y (.inl ho))).later hEval.later
    | true => exact (h.readable (hTarget y ho)).later hEval.later

theorem checkCaseValue_run {switchType : Ty} {values values' : List Int}
    (h : checkCaseValue Γ switchType values e c = .ok (values', c')) :
    ∃ t, inferType Γ e c = .ok (t, c') := by
  obtain ⟨t, c₁, hInfer, h⟩ := bind_run_ok.1 h
  refine ⟨t, ?_⟩
  split at h
  · cases throw_run_ok.1 h
  split at h
  · cases throw_run_ok.1 h
  obtain ⟨_, _, hGet, h⟩ := bind_run_ok.1 h
  cases get_run_ok.1 hGet
  cases hConstant : Γ.caseConstant c₁ e with
  | none =>
    rw [hConstant] at h
    cases throw_run_ok.1 h
  | some v =>
    rw [hConstant] at h
    dsimp only at h
    split at h
    · cases throw_run_ok.1 h
    · cases pure_run_ok.1 h
      exact hInfer

/-- **Cases.** -/
theorem checkCases_ready {switchType : Ty} {snapshot : List Bool} :
    ∀ {l : List (Option Expr × List Stmt)} {values : List Int} {seenDefault : Bool}
      {out : List Int × Bool} {c c' : Checker},
      checkCases Γ switchType snapshot l values seenDefault c = .ok (out, c') →
      LastingCases Γ switchType snapshot l values c → snapshot = capture c.tracked →
      Agrees mask c env r →
      ∀ k ∈ l, ∃ c c', checkBlock Γ k.2 c = .ok ((), c') ∧
        LastingStatements Γ k.2 c.enterScope ∧ Agrees mask c env r := by
  intro l
  induction l with
  | nil => simp
  | cons clause rest ih =>
    obtain ⟨value, body⟩ := clause
    intro values seenDefault out c c' hCheck hLasting hSnapshot h
    -- One body from `c₀`, then the rest from the restored flags.
    have hStep : ∀ (values' : List Int) (seenDefault' : Bool) {c₀ : Checker},
        (do checkBlock Γ body
            restoreSnapshot snapshot
            checkCases Γ switchType snapshot rest values' seenDefault') c₀ = .ok (out, c') →
        LastingStatements Γ body c₀.enterScope →
        (After (do checkBlock Γ body; restoreSnapshot snapshot) c₀ fun c₁ =>
          LastingCases Γ switchType snapshot rest values' c₁) →
        snapshot = capture c₀.tracked → Agrees mask c₀ env r →
        ∀ k ∈ (value, body) :: rest, ∃ c c', checkBlock Γ k.2 c = .ok ((), c') ∧
          LastingStatements Γ k.2 c.enterScope ∧ Agrees mask c env r := by
      intro values' seenDefault' c₀ hRun hBody hAfter hFlags hAgrees k hk
      obtain ⟨_, c₁, hBlock, hRun⟩ := bind_run_ok.1 hRun
      obtain ⟨_, c₂, hRestore, hRest⟩ := bind_run_ok.1 hRun
      have hLastingRest := hAfter _ _ (bind_run_ok.2 ⟨_, _, hBlock, hRestore⟩)
      cases modify_run_ok.1 hRestore
      have hGrows := checkBlock_grows hBlock
      rcases mem_cons.1 hk with rfl | hk
      · exact ⟨c₀, c₁, hBlock, hBody, hAgrees⟩
      · refine ih hRest hLastingRest ?_ (hFlags ▸ hAgrees.restored hGrows) k hk
        show snapshot = capture (restore c₁.tracked snapshot)
        rw [hFlags, restore_capture hGrows.names_nil]
    cases value with
    | none =>
      simp only [checkCases] at hCheck
      split at hCheck
      · cases throw_run_ok.1 hCheck
      · refine hStep values true ?_ hLasting.1 hLasting.2 hSnapshot h
        simpa only [checkBlock, bind_assoc] using hCheck
    | some e =>
      obtain ⟨values', c₀, hValue, hCheck⟩ := bind_run_ok.1 hCheck
      obtain ⟨t, hInfer⟩ := checkCaseValue_run hValue
      have hIns := inferType_inserts hInfer
      obtain ⟨hBody, hAfter⟩ := hLasting values' c₀ hValue
      refine hStep values' seenDefault ?_ hBody hAfter
        (by rw [hIns.tracked]; exact hSnapshot) (h.inserts hIns)
      simpa only [checkBlock, bind_assoc] using hCheck

variable {variants : List (Name × Option Ty)}

theorem LastingArms.get {marks : List Tracked} :
    ∀ {arms : List (Pattern × List Stmt)} {k : Nat} {pattern : Pattern}
      {body : List Stmt}, LastingArms Γ typeName variants c marks arms →
      arms[k]? = some (pattern, body) →
      ∀ covered binding, checkPattern typeName variants [] pattern = .ok (covered, binding) →
        LastingStatements Γ body (bindingScopes binding c).enterScope ∧
        ∃ c', withBinding binding (checkBlock Γ body) c = .ok ((), c') ∧ c'.tracked = marks := by
  intro arms
  induction arms with
  | nil => simp
  | cons arm rest ih =>
    obtain ⟨pattern', body'⟩ := arm
    intro k pattern body hLasting hGet
    cases k with
    | zero =>
      obtain ⟨rfl, rfl⟩ : pattern' = pattern ∧ body' = body := by simpa using hGet
      exact hLasting.1
    | succ k => exact ih hLasting.2 (by simpa using hGet)

theorem checkPattern_alone {covered : List Nat} {pattern : Pattern}
    {out : List Nat × Option (Name × Ty)}
    (h : checkPattern typeName variants covered pattern = .ok out) :
    ∃ covered', checkPattern typeName variants [] pattern = .ok (covered', out.2) := by
  cases pattern with
  | default =>
    obtain rfl : (covered, none) = out := Except.ok.inj h
    exact ⟨[], rfl⟩
  | variant v binding =>
    simp only [checkPattern] at h ⊢
    split at h
    · cases h
    · split at h
      · cases h
      · simp only [not_mem_nil, if_false]
        cases binding with
        | none =>
          cases h
          exact ⟨_, rfl⟩
        | some x =>
          dsimp only at h ⊢
          split at h
          · cases h
          · cases h
            exact ⟨_, rfl⟩

theorem checkArms_pattern :
    ∀ {arms : List (Pattern × List Stmt)} {covered : List Nat} {seenDefault : Bool}
      {out : List Nat × Bool} {c c' : Checker} {k : Nat} {pattern : Pattern} {body : List Stmt},
      checkArms Γ typeName variants arms covered seenDefault c = .ok (out, c') →
      arms[k]? = some (pattern, body) →
      ∃ covered' binding, checkPattern typeName variants [] pattern = .ok (covered', binding) := by
  intro arms
  induction arms with
  | nil => simp
  | cons arm rest ih =>
    obtain ⟨pattern', body'⟩ := arm
    intro covered seenDefault out c c' k pattern body hCheck hGet
    obtain ⟨⟨covered', binding⟩, c₁, hPattern, hCheck⟩ := bind_run_ok.1 hCheck
    obtain ⟨_, c₂, -, hRest⟩ := bind_run_ok.1 hCheck
    cases k with
    | zero =>
      obtain ⟨rfl, rfl⟩ : pattern' = pattern ∧ body' = body := by simpa using hGet
      obtain ⟨q, hPat, -⟩ := lift_run_ok.1 hPattern
      obtain ⟨covered'', hAlone⟩ := checkPattern_alone hPat
      exact ⟨covered'', q.2, hAlone⟩
    | succ k => exact ih hRest (by simpa using hGet)

theorem Agrees.bind (h : Agrees mask c env r) {cell : Nat} (hCell : cell ∈ r.initialised) :
    Agrees (false :: mask) (bindingScopes (some (x, t)) c) ((x, cell) :: env) r where
  clean := ⟨by simp [Symbol.isVariable], h.clean⟩
  agree := .unfollowed h.agree (.inr rfl) hCell

theorem SoundAt.arm (hSound : SoundAt Γ fuel) {pattern : Pattern} {binding : Option (Name × Ty)}
    {body : List Stmt} (hBinding : binding.map Prod.fst = pattern.binding)
    (hCheck : withBinding binding (checkBlock Γ body) c = .ok ((), c'))
    (hLasting : LastingStatements Γ body (bindingScopes binding c).enterScope)
    (h : Agrees mask c env r) (hReady : DeferredReady Γ r) :
    Safe Stop.isUninitialised (do
      let inner ← bindPattern env pattern
      execBlock Γ fuel inner body) r fun signal r' => Passed Γ r r' ∧
        (signal = .normal → Agrees mask c' env r') := by
  cases binding with
  | none =>
    have hPattern : bindPattern env pattern = pure env := by
      cases pattern with
      | default => rfl
      | variant v b =>
        cases b with
        | none => rfl
        | some x => simp [Pattern.binding] at hBinding
    rw [hPattern, pure_bind]
    exact hSound.block hCheck hLasting h hReady
  | some p =>
    obtain ⟨x, t⟩ := p
    obtain ⟨v, rfl⟩ : ∃ v, pattern = .variant v (some x) := by
      cases pattern with
      | default => simp [Pattern.binding] at hBinding
      | variant v b => exact ⟨v, by simpa [Pattern.binding] using hBinding.symm⟩
    simp only [withBinding, bind_run_ok, modify_run_ok, pure_run_ok, Prod.mk.injEq] at hCheck
    obtain ⟨_, _, ⟨-, rfl⟩, _, c₁, hBlock, _, _, ⟨-, rfl⟩, -, rfl⟩ := hCheck
    have hGrows := checkBlock_grows hBlock
    simp only [bindPattern, bind_assoc, pure_bind]
    refine (allocate_safe true r).bind ?_
    rintro cell r₁ ⟨hEval, hCell⟩
    have hInner := (h.later hEval.later).bind (x := x) (t := t) (hCell rfl)
    refine (hSound.block hBlock hLasting hInner (hReady.evaluated hEval)).conseq ?_
    rintro signal r₂ ⟨hPassed, hNormal⟩
    refine ⟨(hEval.passed hReady).trans hPassed, fun hSignal => ?_⟩
    -- The scope of the binding is dropped again, on both sides.
    have hScopes : c₁.scopes.tail = c.scopes := hGrows.tail
    have hAgree := (hNormal hSignal).agree
    rw [hGrows.vars_nil] at hAgree
    refine ⟨by rw [hScopes]; exact h.clean, ?_⟩
    show Agree _ _ (variablesOf c₁.scopes.tail) _ c₁.tracked
    rw [hScopes]
    cases hAgree with
    | unfollowed hAgree _ _ => exact hAgree

theorem checkExpressionStatement_run (h : checkExpressionStatement Γ e c = .ok ((), c')) :
    ∃ t, inferType Γ e c = .ok (t, c') := by
  unfold checkExpressionStatement at h
  split at h
  case h_4 => cases throw_run_ok.1 h
  all_goals
    obtain ⟨t, c₁, hInfer, hPure⟩ := bind_run_ok.1 h
    cases pure_run_ok.1 hPure
    exact ⟨t, hInfer⟩

/-- **Branches.** -/
theorem SoundAt.ifStatement_succ (hSound : SoundAt Γ fuel) {condition : Expr} {thenBranch : Stmt}
    {elseIfs : List (Expr × Stmt)} {elseBranch : Option Stmt}
    (hCheck : checkStatement Γ (.ifStatement condition thenBranch elseIfs elseBranch) c =
      .ok ((), c'))
    (hLasting : Lasting Γ (.ifStatement condition thenBranch elseIfs elseBranch) c)
    (h : Agrees mask c env r) (hReady : DeferredReady Γ r) :
    Safe Stop.isUninitialised
      (execStatement Γ (fuel + 1) env (.ifStatement condition thenBranch elseIfs elseBranch)) r
      (Outcome Γ mask (.ifStatement condition thenBranch elseIfs elseBranch) c' env r) := by
  simp only [checkStatement, bind_run_ok, get_run_ok, Prod.mk.injEq] at hCheck
  obtain ⟨_, c₀, hCond, _, _, ⟨rfl, rfl⟩, _, c₁, hThen, _, c₂, hRestore, _, c₃, hClauses, _, c₄,
    hElse, hRestore'⟩ := hCheck
  obtain ⟨hCalls, hBare, hAfter⟩ := hLasting
  obtain ⟨hLastingThen, hAfter⟩ := hAfter _ _ hCond
  obtain ⟨hLastingClauses, hAfter⟩ := hAfter _ _ (bind_run_ok.2 ⟨_, _, hThen, hRestore⟩)
  have hLastingElse := hAfter _ _ hClauses
  simp only [bareDeclarations, append_eq_nil_iff] at hBare
  obtain ⟨⟨hBareThen, hBareClauses⟩, hBareElse⟩ := hBare
  obtain ⟨t, hInfer⟩ := checkCondition_run hCond
  have hIns := inferType_inserts hInfer
  -- Each part declares nothing, so the flags captured after the condition come back.
  have hGrowsThen : Grows [] c₀ c₁ := by
    simpa [bareNames, hBareThen] using checkStatement_declares Γ thenBranch _ _ _ hThen
  have hGrowsClauses : Grows [] c₂ c₃ := by
    simpa [hBareClauses] using checkElseIfs_declares Γ _ elseIfs _ _ _ hClauses
  have hGrowsElse : Grows [] c₃ c₄ := by
    simpa [hBareElse] using checkElse_declares Γ elseBranch _ _ _ hElse
  have hTracked : restore c₁.tracked (capture c₀.tracked) = c₀.tracked :=
    restore_capture hGrowsThen.names_nil
  have hGrowsRestore := restoreSnapshot_declares _ _ _ _ hRestore
  have hGrowsAll : Grows [] c₀ c₄ :=
    hGrowsThen.trans (hGrowsRestore.trans (hGrowsClauses.trans hGrowsElse))
  cases modify_run_ok.1 hRestore
  cases modify_run_ok.1 hRestore'
  have hOut : ∀ r' signal, Passed Γ r r' → Outcome Γ mask
      (.ifStatement condition thenBranch elseIfs elseBranch)
      { c₄ with tracked := restore c₄.tracked (capture c₀.tracked) } env r (signal, env) r' :=
    fun r' signal hPassed => Outcome.of_passed hPassed
      fun _ => ((h.inserts hIns).later hPassed.later).restored hGrowsAll
  refine (inferred_safe hInfer hCalls h).bind fun _ r₁ hEval => ?_
  refine (choose_safe r₁).bind fun n r₂ hEval' => ?_
  have hPassed₂ := (hEval.trans hEval').passed hReady
  have hHead := (h.inserts hIns).later hPassed₂.later
  split
  · rw [hBareThen]
    refine (skipDeclarations_nil_safe (Q := fun env' r' => env' = env ∧ r' = r₂) ⟨rfl, rfl⟩).bind ?_
    rintro env₁ r₁ ⟨hEnv₁, hRun₁⟩
    rw [hEnv₁, hRun₁]
    refine (hSound.elseIfs (c := { c₁ with tracked := restore c₁.tracked (capture c₀.tracked) })
      (by rw [hTracked]; rw [hTracked] at hClauses; exact hClauses) hElse
      (by rw [hTracked]; rw [hTracked] at hLastingClauses; exact hLastingClauses) hLastingElse
      hBareClauses hBareElse (hHead.restored hGrowsThen) hPassed₂.ready).conseq ?_
    rintro ⟨signal, env'⟩ r' ⟨hPassed, hEnv⟩
    obtain rfl : env' = env := hEnv
    exact hOut r' signal (hPassed₂.trans hPassed)
  · refine (hSound.statement hThen hLastingThen hHead hPassed₂.ready).bind
      fun out r₃ hOutcome => ?_
    rw [hBareClauses, hBareElse]
    refine (skipDeclarations_nil_safe (Q := fun env' r' => env' = out.2 ∧ r' = r₃) ⟨rfl, rfl⟩).bind ?_
    rintro env₁ r₁ ⟨hEnv₁, hRun₁⟩
    rw [hEnv₁, hRun₁, hOutcome.same hBareThen]
    exact Safe.pure (hOut r₃ out.1 (hPassed₂.trans ⟨hOutcome.later, hOutcome.ready⟩))

theorem SoundAt.whileStatement_succ (hSound : SoundAt Γ fuel) {condition : Expr}
    (hCheck : checkStatement Γ (.whileStatement label condition body) c = .ok ((), c'))
    (hLasting : Lasting Γ (.whileStatement label condition body) c) (h : Agrees mask c env r)
    (hReady : DeferredReady Γ r) :
    Safe Stop.isUninitialised
      (execStatement Γ (fuel + 1) env (.whileStatement label condition body)) r
      (Outcome Γ mask (.whileStatement label condition body) c' env r) := by
  simp only [checkStatement, bind_run_ok, get_run_ok, modify_run_ok, Prod.mk.injEq] at hCheck
  obtain ⟨_, c₀, hCond, _, _, ⟨rfl, rfl⟩, _, _, ⟨-, rfl⟩, _, c₁, hBody, _, _, ⟨-, rfl⟩,
    hRestore⟩ := hCheck
  obtain ⟨hCalls, hBare, hAfter⟩ := hLasting
  have hLastingBody := hAfter _ _ hCond
  obtain ⟨t, hInfer⟩ := checkCondition_run hCond
  have hGrowsBody : Grows [] c₀.enterLoop c₁ := by
    simpa [bareNames, hBare] using checkStatement_declares Γ body _ _ _ hBody
  have hGrowsAll : Grows [] c₀ c₁.exitLoop :=
    (enterLoop_declares c₀ _ _ rfl).trans (hGrowsBody.trans (exitLoop_declares c₁ _ _ rfl))
  cases modify_run_ok.1 hRestore
  simp only [execStatement]
  rw [hBare]
  refine (skipDeclarations_nil_safe (Q := fun env' r' => env' = env ∧ r' = r) ⟨rfl, rfl⟩).bind ?_
  rintro env₁ r₁ ⟨hEnv₁, hRun₁⟩
  rw [hEnv₁, hRun₁]
  refine (hSound.loop hCalls hCond hBody hLastingBody hBare h hReady).conseq ?_
  rintro ⟨signal, env'⟩ r' ⟨hPassed, hEnv⟩
  obtain rfl : env' = _ := hEnv
  exact Outcome.of_passed hPassed fun _ =>
    ((h.inserts (inferType_inserts hInfer)).later hPassed.later).restored hGrowsAll

theorem initializer_safe (hCheck : checkForInitializer Γ initializer c = .ok ((), c'))
    (hLasting : LastingInitializer Γ c initializer) (h : Agrees mask c env r) :
    Safe Stop.isUninitialised (execForInitializer Γ env initializer) r fun header r' =>
      Evaluated r r' ∧ ∃ new, Agrees (new ++ mask) c' header r' ∧ env <:+ header := by
  unfold checkForInitializer at hCheck
  split at hCheck
  · cases pure_run_ok.1 hCheck
    exact Safe.pure ⟨Evaluated.refl r, [], h, suffix_refl env⟩
  · simp only [execForInitializer]
    rw [← bind_assoc]
    refine (declaration_safe hCheck ?_ h).bind ?_
    · intro e he
      subst he
      exact hLasting
    · rintro cell r₁ ⟨hEval, followed, hAgrees⟩
      exact Safe.pure ⟨hEval, [followed], hAgrees, suffix_cons _ _⟩
  · simp only [execForInitializer]
    rw [← bind_assoc]
    refine (assignment_safe hCheck hLasting.1 hLasting.2 h).bind ?_
    rintro _ r₁ ⟨hEval, hAgrees⟩
    exact Safe.pure ⟨hEval, [], hAgrees, suffix_refl env⟩
  · have hIns := (processTargetAssignment_observes Γ _ _ c _ c' hCheck).1
    simp only [execForInitializer]
    rw [← bind_assoc]
    refine (targetAssignment_safe hCheck hLasting.1 hLasting.2 h).bind fun _ r₁ hEval => ?_
    exact Safe.pure ⟨hEval, [], (h.inserts hIns).later hEval.later, suffix_refl env⟩
  · obtain ⟨t, c₁, hInfer, hPure⟩ := bind_run_ok.1 hCheck
    cases pure_run_ok.1 hPure
    refine (inferred_safe hInfer hLasting h).bind fun _ r₁ hEval => ?_
    exact Safe.pure ⟨hEval, [], (h.inserts (inferType_inserts hInfer)).later hEval.later,
      suffix_refl env⟩
  · cases throw_run_ok.1 hCheck

theorem restore_capture_append {tracked tracked' : List Tracked} {new : List Name}
    (h : tracked'.map Tracked.name = new ++ tracked.map Tracked.name) :
    ∃ newer, restore tracked' (capture tracked) = newer ++ tracked := by
  have hLength : tracked'.length = new.length + tracked.length := by
    simpa using congrArg length h
  have hDrop : (tracked'.drop new.length).map Tracked.name = tracked.map Tracked.name := by
    rw [map_drop, h, drop_left]
  have hSuffix := restore_capture hDrop
  refine ⟨tracked'.take new.length, ?_⟩
  unfold restore capture at hSuffix ⊢
  have hMin : min tracked.length (new.length + tracked.length) = tracked.length := by omega
  simp only [length_map, length_drop, hLength, Nat.add_sub_cancel_left, Nat.min_self,
    Nat.sub_self, take_zero, drop_zero, nil_append] at hSuffix
  simp [hLength, hSuffix]

theorem restored_exitScope {names : List Name} {c₀ : Checker} (hGrows : Grows names c₀ c')
    (hMarker : c₀.markers.headD 0 ≤ c₀.tracked.length) :
    ({ c' with tracked := restore c'.tracked (capture c₀.tracked) } : Checker).exitScope.tracked =
      c₀.exitScope.tracked := by
  obtain ⟨new, hTracked, -⟩ := hGrows.tracked
  obtain ⟨newer, hRestore⟩ := restore_capture_append hTracked
  simp only [Checker.exitScope, hRestore, hGrows.markers, length_append]
  rw [show newer.length + c₀.tracked.length - c₀.markers.headD 0 =
    newer.length + (c₀.tracked.length - c₀.markers.headD 0) by omega, drop_length_add_append]

theorem SoundAt.forStatement_succ (hSound : SoundAt Γ fuel)
    (hCheck : checkStatement Γ (.forStatement label initializer condition increment body) c =
      .ok ((), c'))
    (hLasting : Lasting Γ (.forStatement label initializer condition increment body) c)
    (h : Agrees mask c env r) (hReady : DeferredReady Γ r) :
    Safe Stop.isUninitialised
      (execStatement Γ (fuel + 1) env (.forStatement label initializer condition increment body)) r
      (Outcome Γ mask (.forStatement label initializer condition increment body) c' env r) := by
  simp only [checkStatement, bind_run_ok, get_run_ok, modify_run_ok, Prod.mk.injEq] at hCheck
  obtain ⟨_, _, ⟨-, rfl⟩, _, c₀, hInit, _, _, ⟨rfl, rfl⟩, _, c₁, hCond, _, c₂, hStep, _, _,
    ⟨-, rfl⟩, _, c₃, hBody, _, _, ⟨-, rfl⟩, _, _, hRestore, -, rfl⟩ := hCheck
  cases modify_run_ok.1 hRestore
  obtain ⟨hLastingInit, hAfter⟩ := hLasting
  obtain ⟨hCalls, hIncrement, hAfter⟩ := hAfter _ _ hInit
  have hLastingBody := hAfter _ _ hCond _ _ hStep
  obtain ⟨names, hDeclares⟩ := checkForInitializer_declares Γ initializer
  have hGrowsInit := hDeclares _ _ _ hInit
  have hGrowsBody := checkStatement_declares Γ body _ _ _ hBody
  have hGrowsLoop : Grows _ c₀ c₃.exitLoop :=
    (checkForCondition_inserts hCond).grows.trans ((checkForIncrement_inserts hStep).grows.trans
      ((enterLoop_declares c₂ _ _ rfl).trans (hGrowsBody.trans (exitLoop_declares c₃ _ _ rfl))))
  refine (initializer_safe hInit hLastingInit h.enterScope).bind ?_
  rintro header r₁ ⟨hEval, new, hHeader, hEnv⟩
  refine (hSound.forLoop hCalls hIncrement hCond hStep hBody hLastingBody hHeader
    (hReady.evaluated hEval)).bind fun signal r₂ hPassed => ?_
  refine Safe.pure (Outcome.of_passed ((hEval.passed hReady).trans hPassed) fun _ => ?_)
  have hLeft : Agrees mask c₀.exitScope env r₂ :=
    h.exitScope (hHeader.later hPassed.later) hGrowsInit hEnv
  have hMarker : c₀.markers.headD 0 ≤ c₀.tracked.length := by
    obtain ⟨pushed, hPushed, -⟩ := hGrowsInit.tracked
    have hLength := congrArg length hPushed
    rw [hGrowsInit.markers]
    simp only [length_append, length_map, Checker.enterScope, headD_cons] at hLength ⊢
    omega
  have hScopes : c₃.exitLoop.scopes.tail = c₀.scopes.tail := hGrowsLoop.tail
  refine hLeft.frame ?_ ?_ (restored_exitScope hGrowsLoop hMarker)
  · intro hClean
    show Clean c₃.exitLoop.scopes.tail
    rw [hScopes]
    exact hClean
  · show variablesOf c₃.exitLoop.scopes.tail = variablesOf c₀.scopes.tail
    rw [hScopes]

theorem SoundAt.switchStatement_succ (hSound : SoundAt Γ fuel)
    {cases : List (Option Expr × List Stmt)}
    (hCheck : checkStatement Γ (.switchStatement e cases) c = .ok ((), c'))
    (hLasting : Lasting Γ (.switchStatement e cases) c) (h : Agrees mask c env r)
    (hReady : DeferredReady Γ r) :
    Safe Stop.isUninitialised (execStatement Γ (fuel + 1) env (.switchStatement e cases)) r
      (Outcome Γ mask (.switchStatement e cases) c' env r) := by
  obtain ⟨t, c₀, hInfer, hCheck⟩ := bind_run_ok.1 hCheck
  split at hCheck
  · cases throw_run_ok.1 hCheck
  simp only [bind_run_ok, get_run_ok, modify_run_ok, lift_run_ok, Prod.mk.injEq] at hCheck
  obtain ⟨_, _, ⟨rfl, rfl⟩, _, _, ⟨-, rfl⟩, out, c₁, hCases, _, _, ⟨-, rfl⟩, _, _, hRestore, _, -,
    -, rfl⟩ := hCheck
  cases modify_run_ok.1 hRestore
  have hIns := inferType_inserts hInfer
  have hGrows : Grows [] c₀ c₁.exitSwitch :=
    (enterSwitch_declares c₀ _ _ rfl).trans
      ((checkCases_declares Γ t _ cases [] false _ _ _ hCases).trans
        (exitSwitch_declares c₁ _ _ rfl))
  refine (inferred_safe hInfer hLasting.1 h).bind fun _ r₁ hEval => ?_
  refine (choose_safe r₁).bind fun k r₂ hEval' => ?_
  have hPassed₂ := (hEval.trans hEval').passed hReady
  have hHead : Agrees mask c₀.enterSwitch env r₂ :=
    ((h.inserts hIns).later hPassed₂.later).frame id rfl rfl
  have hList := checkCases_ready hCases (hLasting.2 t c₀ hInfer) rfl hHead
  refine (hSound.cases (fun clause hClause => hList clause (mem_of_mem_drop hClause))
    hPassed₂.ready).bind fun signal r₃ hPassed => ?_
  exact Safe.pure (Outcome.of_passed (hPassed₂.trans hPassed) fun _ =>
    ((h.inserts hIns).later (hPassed₂.later.trans hPassed.later)).restored hGrows)

/-- **Match arms.** -/
theorem SoundAt.matchStatement_succ (hSound : SoundAt Γ fuel) {arms : List (Pattern × List Stmt)}
    (hCheck : checkStatement Γ (.matchStatement e arms) c = .ok ((), c'))
    (hLasting : Lasting Γ (.matchStatement e arms) c) (h : Agrees mask c env r)
    (hReady : DeferredReady Γ r) :
    Safe Stop.isUninitialised (execStatement Γ (fuel + 1) env (.matchStatement e arms)) r
      (Outcome Γ mask (.matchStatement e arms) c' env r) := by
  simp only [checkStatement, bind_run_ok, lift_run_ok, Prod.mk.injEq] at hCheck
  obtain ⟨t, c₀, hInfer, variants, _, ⟨_, hVariants, rfl, rfl⟩, out, c₁, hArms, _, -, -, rfl⟩ :=
    hCheck
  have hIns := inferType_inserts hInfer
  have hGrows := checkArms_declares Γ t.name _ arms [] false _ _ _ hArms
  have hLastingArms := hLasting.2 t c₀ _ hInfer hVariants _ _ hArms
  refine (inferred_safe hInfer hLasting.1 h).bind fun _ r₁ hEval => ?_
  refine (choose_safe r₁).bind fun k r₂ hEval' => ?_
  have hPassed₂ := (hEval.trans hEval').passed hReady
  split
  · exact Safe.throw fun h => h
  · rename_i pattern body hGet
    obtain ⟨covered, binding, hPattern⟩ := checkArms_pattern hArms hGet
    obtain ⟨hBody, c₂, hArm, hMarks⟩ := hLastingArms.get hGet covered binding hPattern
    rw [← bind_assoc]
    refine (hSound.arm (checkPattern_binding hPattern) hArm hBody
      ((h.inserts hIns).later hPassed₂.later) hPassed₂.ready).bind ?_
    rintro signal r₃ ⟨hPassed, hNormal⟩
    refine Safe.pure (Outcome.of_passed (hPassed₂.trans hPassed) fun hSignal => ?_)
    -- The arm's own state and the match's have the same variables and marks.
    have hGrowsArm := withBinding_declares binding
      (block_declares (checkStatements_declares Γ body)) _ _ _ hArm
    have hAgrees := hNormal hSignal
    exact hAgrees.frame (fun _ => hGrows.clean (h.inserts hIns).clean)
      (hGrows.vars_nil.trans hGrowsArm.vars_nil.symm) hMarks.symm

theorem defer_safe {s deferring : Stmt} (hCheck : checkStatement Γ s c = .ok ((), c'))
    (hDeferrable : isDeferrable s = true)
    (hLasting : Lasting Γ s c ∧ After (checkStatement Γ s) c fun c' => c'.tracked = c.tracked)
    (h : Agrees mask c env r) (hReady : DeferredReady Γ r) :
    Safe Stop.isUninitialised (do
      modify fun r => { r with deferred := (env, s) :: r.deferred }
      pure (Signal.normal, env)) r (Outcome Γ mask deferring c' env r) := by
  have hGrows : Grows [] c c' := by
    simpa [bareNames, bareDeclarations_of_isDeferrable hDeferrable] using
      checkStatement_declares Γ s _ _ _ hCheck
  refine Safe.bind (Q := fun _ r' => r' = { r with deferred := (env, s) :: r.deferred })
    (Safe.modify rfl) ?_
  rintro _ r₁ rfl
  have hSame : Agrees mask c env { r with deferred := (env, s) :: r.deferred } :=
    h.later fun _ h => h
  refine Safe.pure (Outcome.of_passed ⟨fun _ h => h, ?_⟩ fun _ =>
    hSame.grows hGrows (hLasting.2 _ _ hCheck))
  intro d hd
  rcases mem_cons.1 hd with rfl | hd
  · exact ⟨mask, c, c', hCheck, hLasting.1, hSame⟩
  · exact (hReady d hd).later fun _ h => h

theorem SoundAt.statement_succ (hSound : SoundAt Γ fuel) {s : Stmt}
    (hCheck : checkStatement Γ s c = .ok ((), c')) (hLasting : Lasting Γ s c)
    (h : Agrees mask c env r) (hReady : DeferredReady Γ r) :
    Safe Stop.isUninitialised (execStatement Γ (fuel + 1) env s) r (Outcome Γ mask s c' env r) := by
  cases s with
  | varDeclaration x typeName initializer =>
    simp only [execStatement]
    rw [← bind_assoc]
    refine (declaration_safe hCheck hLasting h).bind ?_
    rintro cell r₁ ⟨hEval, followed, hAgrees⟩
    exact Safe.pure ⟨hEval.later, hReady.evaluated hEval, by simp [bareDeclarations],
      fun _ => ⟨[followed], hAgrees, suffix_cons _ _⟩⟩
  | assignment x value =>
    simp only [execStatement]
    rw [← bind_assoc]
    refine (assignment_safe hCheck hLasting.1 hLasting.2 h).bind ?_
    rintro _ r₁ ⟨hEval, hAgrees⟩
    exact Safe.pure (Outcome.of_passed (hEval.passed hReady) fun _ => hAgrees)
  | targetAssignment target value =>
    have hIns := (processTargetAssignment_observes Γ target value c _ c' hCheck).1
    simp only [execStatement]
    rw [← bind_assoc]
    refine (targetAssignment_safe hCheck hLasting.1 hLasting.2 h).bind fun _ r₁ hEval => ?_
    exact Safe.pure (Outcome.of_passed (hEval.passed hReady)
      fun _ => (h.inserts hIns).later hEval.later)
  | expression e =>
    obtain ⟨t, hInfer⟩ := checkExpressionStatement_run hCheck
    refine (inferred_safe hInfer hLasting h).bind fun _ r₁ hEval => ?_
    exact Safe.pure (Outcome.of_passed (hEval.passed hReady)
      fun _ => (h.inserts (inferType_inserts hInfer)).later hEval.later)
  | returnStatement value =>
    cases value with
    | none =>
      refine Safe.bind (Q := fun _ r' => Evaluated r r') (Safe.pure (Evaluated.refl r))
        fun _ r₁ hEval => ?_
      exact Safe.pure (Outcome.of_passed (hEval.passed hReady) (by simp))
    | some e =>
      simp only [checkStatement, bind_run_ok] at hCheck
      obtain ⟨t, c₁, hInfer, -⟩ := hCheck
      refine (inferred_safe hInfer (hLasting e rfl) h).bind fun _ r₁ hEval => ?_
      exact Safe.pure (Outcome.of_passed (hEval.passed hReady) (by simp))
  | ifStatement condition thenBranch elseIfs elseBranch =>
    exact hSound.ifStatement_succ hCheck hLasting h hReady
  | whileStatement label condition body => exact hSound.whileStatement_succ hCheck hLasting h hReady
  | forStatement label initializer condition increment body =>
    exact hSound.forStatement_succ hCheck hLasting h hReady
  | switchStatement e cases => exact hSound.switchStatement_succ hCheck hLasting h hReady
  | matchStatement e arms => exact hSound.matchStatement_succ hCheck hLasting h hReady
  | breakStatement label =>
    exact Safe.pure (Outcome.of_passed ((Evaluated.refl r).passed hReady) (by simp))
  | continueStatement label =>
    exact Safe.pure (Outcome.of_passed ((Evaluated.refl r).passed hReady) (by simp))
  | deferStatement s =>
    simp only [checkStatement] at hCheck
    split at hCheck
    · rename_i hDeferrable
      exact defer_safe hCheck hDeferrable hLasting h hReady
    · cases throw_run_ok.1 hCheck
  | errdeferStatement s =>
    simp only [checkStatement] at hCheck
    split at hCheck
    · rename_i hDeferrable
      exact defer_safe hCheck hDeferrable hLasting h hReady
    · cases throw_run_ok.1 hCheck
  | inlineAsm code =>
    cases pure_run_ok.1 hCheck
    exact Safe.pure (Outcome.of_passed ((Evaluated.refl r).passed hReady) fun _ => h)
  | block statements =>
    refine (hSound.block hCheck hLasting h hReady).bind ?_
    rintro signal r₁ ⟨hPassed, hNormal⟩
    exact Safe.pure (Outcome.of_passed hPassed hNormal)

/-- **Runs.** -/
theorem soundAt (Γ : Context) : ∀ fuel, SoundAt Γ fuel
  | 0 => soundAt_zero Γ
  | fuel + 1 =>
    have hSound := soundAt Γ fuel
    { statement := hSound.statement_succ
      statements := hSound.statements_succ
      block := hSound.block_succ
      deferred := hSound.deferred_succ
      elseIfs := hSound.elseIfs_succ
      loop := hSound.loop_succ
      forLoop := hSound.forLoop_succ
      cases := hSound.cases_succ }

end Sound

-- ---
-- Functions
-- ---

theorem agree_parameters {initialised : List Nat} :
    ∀ l : List ((Name × Ty) × Nat), (∀ p ∈ l, p.2 ∈ initialised) →
      Agree initialised (l.map fun _ => true) (l.map fun p => (p.1.1, .var p.1.2 false))
        (l.map fun p => (p.1.1, p.2)) (l.map fun p => ⟨p.1.1, true⟩)
  | [], _ => .nil
  | p :: l, h =>
    .followed (agree_parameters l fun q hq => h q (mem_cons_of_mem _ hq))
      (fun _ => h p (by simp)) (fun _ => rfl)

theorem variablesOf_functionEntry (parameters : List (Name × Ty)) :
    variablesOf (functionEntry parameters).scopes =
      (parameters.map fun p => (p.1, Symbol.var p.2 false)).reverse := by
  simp only [functionEntry, variablesOf, flatMap_cons, flatMap_nil, append_nil]
  refine filter_eq_self.2 fun v hv => ?_
  simp only [mem_reverse, mem_map] at hv
  obtain ⟨p, -, rfl⟩ := hv
  rfl

theorem functionEntry_agrees (parameters : List (Name × Ty)) (choices : List Nat) :
    ∃ mask, Agrees mask (functionEntry parameters) (parameterEnv parameters)
      { next := parameters.length
        initialised := List.range parameters.length
        deferred := []
        choices := choices } := by
  have hCells : ∀ p ∈ parameters.zipIdx.reverse, p.2 ∈ range parameters.length := by
    intro p hp
    simpa using snd_lt_of_mem_zipIdx (mem_reverse.1 hp)
  have hAgree := agree_parameters _ hCells
  have hMap : ∀ {β : Type} (f : Name × Ty → β),
      (parameters.zipIdx.reverse.map fun p => f p.1) = (parameters.map f).reverse := by
    intro β f
    have hFst : (parameters.zipIdx.map Prod.fst).map f = parameters.map f := by
      rw [zipIdx_map_fst]
    rw [map_reverse, ← hFst, map_map]
    rfl
  have hEnv : (parameters.zipIdx.reverse.map fun p => (p.1.1, p.2)) = parameterEnv parameters := by
    rw [parameterEnv, zipIdx_map, map_reverse]
    rfl
  rw [hMap (fun p => (p.1, Symbol.var p.2 false)), hMap (fun p => Tracked.mk p.1 true), hEnv]
    at hAgree
  refine ⟨_, ⟨⟨?_, trivial⟩, by rw [variablesOf_functionEntry]; exact hAgree⟩⟩
  intro x symbol hMem hSymbol
  simp only [mem_reverse, mem_map] at hMem
  obtain ⟨p, -, hp⟩ := hMem
  cases hp
  cases hSymbol

def ReadsInitialised (Γ : Context) (parameters : List (Name × Ty)) (body : Stmt) : Prop :=
  ∀ (fuel : Nat) (choices : List Nat) (x : Name),
    execFunction Γ parameters body fuel choices ≠ .error (.uninitialised x)

/-- **Reads are initialised.** No run of an accepted body reads a local that
nothing initialised, where no occurrence is passed by a mark that does not last. -/
theorem reads_initialised {Γ : Context} {parameters : List (Name × Ty)} {body : Stmt}
    {c' : Checker} (hCheck : checkFunctionBody Γ parameters body = .ok c')
    (hLasting : Lasting Γ body (functionEntry parameters)) :
    ReadsInitialised Γ parameters body := by
  intro fuel choices x hRun
  unfold checkFunctionBody at hCheck
  split at hCheck
  · obtain ⟨⟨_, c₁⟩, hBody, -⟩ : ∃ p, checkStatement Γ body (functionEntry parameters) = .ok p ∧
        p.2 = c' := by
      cases hStatement : checkStatement Γ body (functionEntry parameters) with
      | error e => simp [hStatement, Except.map] at hCheck
      | ok p => exact ⟨p, rfl, by simpa [hStatement, Except.map] using hCheck⟩
    obtain ⟨mask, hAgrees⟩ := functionEntry_agrees parameters choices
    have hSafe := (soundAt Γ fuel).statement hBody hLasting hAgrees (by simp [DeferredReady])
    unfold execFunction at hRun
    cases hExec : execStatement Γ fuel (parameterEnv parameters) body
        { next := parameters.length
          initialised := range parameters.length
          deferred := []
          choices := choices } with
    | ok p => simp [hExec, Except.map] at hRun
    | error e =>
      obtain rfl : e = .uninitialised x := by simpa [hExec, Except.map] using hRun
      exact hSafe.not_bad hExec trivial
  · cases hCheck

/-- A program with `enum MaybeInt { Some(int32), None }`. -/
def maybeContext : Context where
  globals := [("Some", .constructor (.taggedEnum "MaybeInt") (some .int32)),
    ("None", .constructor (.taggedEnum "MaybeInt") none)]
  typeNamed := fun t => if t = "int32" then some (.int32, []) else none
  hides := fun _ _ => false
  typeSize := fun _ => 0
  structFields := fun _ => []
  taggedVariants := fun _ => [("Some", some .int32), ("None", none)]
  returnType := .int32

/-- `var x: int32; match (o) { case Some(v): x = v; case None: … } return x;` -/
def matchedBody (none : List Stmt) : Stmt :=
  .block [ .varDeclaration "x" (some "int32") Option.none, .matchStatement (.identifier "o") [
      (.variant "Some" (some "v"), [.assignment "x" (.identifier "v")]),
      (.variant "None" Option.none, none)],
    .returnStatement (some (.identifier "x"))]

theorem reads_initialised_bothArms : ReadsInitialised maybeContext [("o", .taggedEnum "MaybeInt")]
      (matchedBody [.assignment "x" (.numberLiteral 0 10)]) := by
  have hAccepted : checkFunctionBody maybeContext [("o", .taggedEnum "MaybeInt")]
      (matchedBody [.assignment "x" (.numberLiteral 0 10)]) =
        .ok (functionEntry [("o", .taggedEnum "MaybeInt")]) := rfl
  refine reads_initialised hAccepted ?_
  simp only [matchedBody, Lasting, LastingStatements, After]
  refine ⟨by simp, fun _ c₁ h₁ => ?_⟩
  cases h₁
  refine ⟨⟨by simp [CallsMarked, occurrences], fun t c₂ variants h₂ hVariants _ c₃ h₃ => ?_⟩,
    fun _ c₄ h₄ => ?_⟩
  · cases h₂
    cases hVariants
    cases h₃
    refine ⟨fun _ _ h => ?_, fun _ _ h => ?_, trivial⟩
    · cases h
      refine ⟨⟨⟨by simp [CallsMarked, occurrences], ?_⟩, fun _ _ _ => trivial⟩, _, rfl, rfl⟩
      rintro t b hLookup hKind
      cases hLookup
      simp [Ty.isAggregate] at hKind
    · cases h
      refine ⟨⟨⟨by simp [CallsMarked, occurrences], ?_⟩, fun _ _ _ => trivial⟩, _, rfl, rfl⟩
      rintro t b hLookup hKind
      cases hLookup
      simp [Ty.isAggregate] at hKind
  · exact ⟨by simp [CallsMarked, occurrences], fun _ _ _ => trivial⟩

/-- The arm of `Some` marks `x` for what follows the match, the arm of `None`
leaves it unwritten. -/
theorem not_readsInitialised_matched :
    (∃ c', checkFunctionBody maybeContext [("o", .taggedEnum "MaybeInt")] (matchedBody []) =
      .ok c') ∧
    ¬ ReadsInitialised maybeContext [("o", .taggedEnum "MaybeInt")] (matchedBody []) := by
  refine ⟨⟨_, rfl⟩, fun h => h 20 [1] "x" rfl⟩

end Mettle.Semantic

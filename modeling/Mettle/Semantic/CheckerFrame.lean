import Mettle.Semantic.Execution

/-!
# Mettle — what checking leaves of the scopes and the tracker

Checking an expression only adds the types and constructors of generic
instances to the current scope, and it passes only where every local it names
carries the tracker's mark. Checking a statement keeps the outer scopes and the
scope markers; what it adds to the current scope and to the tracker are the
declarations the statement makes there.
-/

namespace Mettle.Semantic

open Mettle.Parser Mettle.Lib List

-- ---
-- Variables of a scope stack
-- ---

def variablesOf (scopes : List Scope) : Scope :=
  scopes.flatMap fun scope => scope.filter fun v => v.2.isVariable

/-- No type or constructor stands in a local scope under the name of a variable
of that scope or of an outer one. -/
def Clean : List Scope → Prop
  | [] => True
  | scope :: rest =>
    (∀ x symbol, (x, symbol) ∈ scope → symbol.isVariable = false →
      x ∉ (variablesOf (scope :: rest)).map Prod.fst) ∧ Clean rest

theorem variablesOf_cons (scope : Scope) (rest : List Scope) :
    variablesOf (scope :: rest) = (scope.filter fun v => v.2.isVariable) ++ variablesOf rest := by
  simp [variablesOf]

variable {x : Name}

variable {β : Type}
variable {l : List (Name × β)}

theorem mem_of_lookup_eq_some {b : β} (h : l.lookup x = some b) : (x, b) ∈ l := by
  obtain ⟨l₁, l₂, rfl, _⟩ := lookup_eq_some_iff.1 h
  simp

theorem lookup_eq_none_iff_notMem : l.lookup x = none ↔ x ∉ l.map Prod.fst := by
  rw [lookup_eq_none_iff]
  constructor
  · intro h hMem
    obtain ⟨p, hp, rfl⟩ := mem_map.1 hMem
    simpa using h p hp
  · intro h p hp
    have hne : x ≠ p.1 := fun hEq => h (mem_map.2 ⟨p, hp, hEq.symm⟩)
    simpa using hne

variable {scopes : List Scope}

theorem mem_variablesOf_name (h : x ∈ (variablesOf scopes).map Prod.fst) :
    lookupScopes scopes x ≠ none := by
  induction scopes with
  | nil => simp [variablesOf] at h
  | cons scope rest ih =>
    simp only [lookupScopes]
    cases hs : scope.lookup x with
    | some symbol => simp
    | none =>
      have hNot : x ∉ scope.map Prod.fst := lookup_eq_none_iff_notMem.1 hs
      rw [variablesOf_cons, map_append, mem_append] at h
      rcases h with h | h
      · refine absurd ?_ hNot
        obtain ⟨v, hv, hx⟩ := mem_map.1 h
        exact mem_map.2 ⟨v, (mem_filter.1 hv).1, hx⟩
      · exact ih h

variable {t : Ty}

/-- **A variable that is looked up is the newest variable of its name.** -/
theorem lookup_variablesOf {b : Bool} (h : lookupScopes scopes x = some (.var t b)) :
    (variablesOf scopes).lookup x = some (.var t b) := by
  induction scopes with
  | nil => simp [lookupScopes] at h
  | cons scope rest ih =>
    rw [variablesOf_cons, lookup_append]
    simp only [lookupScopes] at h
    cases hs : scope.lookup x with
    | none =>
      rw [hs] at h
      have hNot : x ∉ (scope.filter fun v => v.2.isVariable).map Prod.fst := by
        intro hMem
        obtain ⟨v, hv, hx⟩ := mem_map.1 hMem
        exact lookup_eq_none_iff_notMem.1 hs (mem_map.2 ⟨v, (mem_filter.1 hv).1, hx⟩)
      rw [lookup_eq_none_iff_notMem.2 hNot]
      exact ih h
    | some symbol =>
      rw [hs] at h
      obtain rfl : symbol = .var t b := by simpa using h
      have hFilter : ∀ l : Scope, l.lookup x = some (Symbol.var t b) →
          (l.filter fun v => v.2.isVariable).lookup x = some (.var t b) := by
        intro l hl
        induction l with
        | nil => simp at hl
        | cons v l ih =>
          obtain ⟨y, s⟩ := v
          by_cases hxy : x = y
          · subst hxy
            simp at hl
            subst hl
            simp [filter, Symbol.isVariable]
          · have hbeq : (x == y) = false := by simpa using hxy
            simp only [lookup_cons, hbeq] at hl
            cases hv : s.isVariable with
            | true => simpa [filter, hv, lookup_cons, hbeq] using ih hl
            | false => simpa [filter, hv] using ih hl
      rw [hFilter scope hs]
      rfl

variable {symbol : Symbol}

theorem Clean.lookup_none (hClean : Clean scopes) (h : lookupScopes scopes x = some symbol)
    (hVar : symbol.isVariable = false) :
    (variablesOf scopes).lookup x = none := by
  induction scopes with
  | nil => simp [lookupScopes] at h
  | cons scope rest ih =>
    simp only [lookupScopes] at h
    cases hs : scope.lookup x with
    | some s =>
      rw [hs] at h
      obtain rfl : s = symbol := by simpa using h
      exact lookup_eq_none_iff_notMem.2 (hClean.1 x s (mem_of_lookup_eq_some hs) hVar)
    | none =>
      rw [hs] at h
      have hNot : x ∉ (scope.filter fun v => v.2.isVariable).map Prod.fst := by
        intro hMem
        obtain ⟨v, hv, hx⟩ := mem_map.1 hMem
        exact lookup_eq_none_iff_notMem.1 hs (mem_map.2 ⟨v, (mem_filter.1 hv).1, hx⟩)
      rw [variablesOf_cons, lookup_append, lookup_eq_none_iff_notMem.2 hNot]
      exact ih hClean.2 h

theorem variablesOf_lookup_none (h : lookupScopes scopes x = none) :
    (variablesOf scopes).lookup x = none :=
  lookup_eq_none_iff_notMem.2 fun hMem => mem_variablesOf_name hMem h

-- ---
-- Insertions of generic instances
-- ---

/-- `c'` is `c` with types and constructors added to the current scope. -/
structure Inserts (c c' : Checker) : Prop where
  tail : c'.scopes.tail = c.scopes.tail
  length : c'.scopes.length = c.scopes.length
  clean : Clean c.scopes → Clean c'.scopes
  vars : variablesOf c'.scopes = variablesOf c.scopes
  lookup : ∀ x s, lookupScopes c.scopes x = some s → lookupScopes c'.scopes x = some s
  tracked : c'.tracked = c.tracked
  markers : c'.markers = c.markers

theorem Inserts.refl (c : Checker) : Inserts c c :=
  ⟨rfl, rfl, id, rfl, fun _ _ h => h, rfl, rfl⟩

variable {c : Checker}

theorem Inserts.trans {a b : Checker} (h : Inserts a b) (h' : Inserts b c) : Inserts a c where
  tail := h'.tail.trans h.tail
  length := h'.length.trans h.length
  clean := fun hClean => h'.clean (h.clean hClean)
  vars := h'.vars.trans h.vars
  lookup := fun x s hx => h'.lookup x s (h.lookup x s hx)
  tracked := h'.tracked.trans h.tracked
  markers := h'.markers.trans h.markers

theorem Context.insertMissing_inserts (Γ : Context) (c : Checker) (x : Name)
    (hVar : symbol.isVariable = false) : Inserts c (Γ.insertMissing c x symbol) := by
  unfold Context.insertMissing
  by_cases hSeen : (Γ.lookup c x).isSome
  · simp only [hSeen, if_true]
    exact Inserts.refl c
  simp only [hSeen]
  have hNone : lookupScopes c.scopes x = none := by
    unfold Context.lookup at hSeen
    cases hl : lookupScopes c.scopes x with
    | none => rfl
    | some s => simp [hl] at hSeen
  show Inserts c (c.insert x symbol)
  unfold Checker.insert
  cases hScopes : c.scopes with
  | nil => exact Inserts.refl c
  | cons scope rest =>
    rw [hScopes] at hNone
    have hVars : variablesOf (((x, symbol) :: scope) :: rest) = variablesOf (scope :: rest) := by
      simp [variablesOf_cons, filter, hVar]
    refine ⟨by simp [hScopes], by simp [hScopes], ?_, by rw [hVars, hScopes], ?_, rfl, rfl⟩
    · intro hClean
      rw [hScopes] at hClean
      refine ⟨?_, hClean.2⟩
      intro y s hMem hNotVar
      rw [hVars]
      rcases mem_cons.1 hMem with hEq | hMem
      · cases hEq
        exact fun hIn => mem_variablesOf_name hIn hNone
      · exact hClean.1 y s hMem hNotVar
    · intro y s hy
      rw [hScopes] at hy
      by_cases hyx : y = x
      · subst hyx
        rw [hNone] at hy
        exact absurd hy (by simp)
      · have hbeq : (y == x) = false := by simpa using hyx
        simpa [lookupScopes, lookup_cons, hbeq] using hy

variable {α : Type}

theorem foldl_inserts (f : Checker → α → Checker) (hf : ∀ c a, Inserts c (f c a)) :
    ∀ (l : List α) (c : Checker), Inserts c (l.foldl f c)
  | [], c => Inserts.refl c
  | a :: l, c => (hf c a).trans (foldl_inserts f hf l (f c a))

theorem Context.instantiate_inserts (Γ : Context) (c : Checker) (i : Instance) :
    Inserts c (Γ.instantiate c i) := by
  unfold Context.instantiate
  split
  · exact Inserts.refl c
  · exact (Γ.insertMissing_inserts c _ rfl).trans
      (foldl_inserts _ (fun c (v : Name × Option Ty) => Γ.insertMissing_inserts c v.1 rfl) _ _)

variable {Γ : Context}

variable {c' : Checker}

theorem Context.typeByName_inserts {text : String} (h : Γ.typeByName c text = some (t, c'))
    : Inserts c c' := by
  unfold Context.typeByName at h
  split at h
  · cases h
  · obtain ⟨r, -, hr⟩ := Option.map_eq_some_iff.1 h
    cases hr
    exact foldl_inserts _ (fun c i => Γ.instantiate_inserts c i) _ _

-- ---
-- Expressions
-- ---

/-- A name that is a followed local carries the tracker's mark. -/
def Marked (Γ : Context) (c : Checker) (x : Name) : Prop :=
  ∀ t, Γ.lookup c x = some (.var t false, true) → t.isAggregate = false →
    c.isInitialized x ≠ some false

theorem Inserts.lookup_local (h : Inserts c c') {s : Symbol} (hx : Γ.lookup c x = some (s, true)) :
    Γ.lookup c' x = some (s, true) := by
  unfold Context.lookup at *
  cases hl : lookupScopes c.scopes x with
  | none => simp [hl] at hx
  | some s' =>
    rw [hl] at hx
    rw [h.lookup x s' hl]
    exact hx

theorem Inserts.marked (h : Inserts c c') (hx : Marked Γ c' x) : Marked Γ c x := by
  intro t hl ht
  have := hx t (h.lookup_local hl) ht
  unfold Checker.isInitialized at *
  rwa [h.tracked] at this

/-- An action that only inserts, and that returns only where each of the named
occurrences is marked; a callee is not looked at. -/
def Observes {α : Type} (Γ : Context) (names : List (Name × Bool)) (m : Check α) : Prop :=
  ∀ c a c', m c = .ok (a, c') → Inserts c c' ∧ ∀ x, (x, false) ∈ names → Marked Γ c x

variable {names : List (Name × Bool)} {f : Checker → Check β}

section Observes

variable {α β : Type} {names' : List (Name × Bool)} {m : Check α}

theorem Observes.pure (a : α) : Observes Γ [] (Pure.pure a : Check α) := by
  intro c b c' h
  cases pure_run_ok.1 h
  exact ⟨Inserts.refl c, by simp⟩

theorem Observes.throw (message : String) : Observes Γ names (throw message : Check α) :=
  fun _ _ _ h => (throw_run_ok.1 h).elim

theorem Observes.lift (x : Except String α) : Observes Γ [] (liftM x : Check α) := by
  intro c b c' h
  obtain ⟨a, -, hr⟩ := lift_run_ok.1 h
  cases hr
  exact ⟨Inserts.refl c, by simp⟩

theorem Observes.bind {f : α → Check β} (h : Observes Γ names m)
    (hf : ∀ a, Observes Γ names' (f a)) : Observes Γ (names ++ names') (m >>= f) := by
  intro c b c' hRun
  obtain ⟨a, c₁, hm, hNext⟩ := bind_run_ok.1 hRun
  obtain ⟨hIns, hMarks⟩ := h c a c₁ hm
  obtain ⟨hIns', hMarks'⟩ := hf a c₁ b c' hNext
  refine ⟨hIns.trans hIns', fun x hx => ?_⟩
  rcases mem_append.1 hx with hx | hx
  · exact hMarks x hx
  · exact hIns.marked (hMarks' x hx)

theorem Observes.get (hf : ∀ c, Observes Γ names (f c)) :
    Observes Γ names (MonadState.get >>= f) := by
  intro c b c' hRun
  obtain ⟨a, c₁, hm, hNext⟩ := bind_run_ok.1 hRun
  cases get_run_ok.1 hm
  exact hf _ _ b c' hNext

theorem Observes.mono (h : Observes Γ names m) (hSub : ∀ x, (x, false) ∈ names' → (x, false) ∈ names) :
    Observes Γ names' m :=
  fun c a c' hRun => ⟨(h c a c' hRun).1, fun x hx => (h c a c' hRun).2 x (hSub x hx)⟩

theorem Observes.ite {p : Prop} [Decidable p] {m' : Check α} (h : Observes Γ names m)
    (h' : Observes Γ names m') : Observes Γ names (if p then m else m') := by
  split
  · exact h
  · exact h'

end Observes

theorem lookup_bindingScope {y : Name} {s : Symbol} (hxy : y ≠ x) :
    Γ.lookup { c with scopes := [(x, s)] :: c.scopes } y = Γ.lookup c y := by
  have hbeq : (y == x) = false := by simpa using hxy
  simp [Context.lookup, lookupScopes, lookup_cons, hbeq]

theorem Observes.withBinding {m : Check α} (binding : Option (Name × Ty)) (h : Observes Γ names m) :
    Observes Γ (names.filter fun o => binding.map Prod.fst != some o.1) (withBinding binding m) := by
  cases binding with
  | none => exact h.mono (by simp)
  | some v =>
    obtain ⟨x, t⟩ := v
    intro c a c' hRun
    simp only [Semantic.withBinding, bind_run_ok, modify_run_ok, pure_run_ok, Prod.mk.injEq] at hRun
    obtain ⟨_, c₁, ⟨-, rfl⟩, b, c₂, hm, _, c₃, ⟨-, rfl⟩, rfl, rfl⟩ := hRun
    obtain ⟨hIns, hMarks⟩ := h _ _ _ hm
    have hScopes : c₂.scopes.tail = c.scopes := by simpa using hIns.tail
    refine ⟨⟨by rw [hScopes], by rw [hScopes], by rw [hScopes]; exact id, by rw [hScopes],
      by rw [hScopes]; exact fun _ _ h => h, hIns.tracked, hIns.markers⟩, ?_⟩
    intro y hy
    simp only [mem_filter, Option.map_some, bne_iff_ne, ne_eq, Option.some.injEq] at hy
    have hMark := hMarks y hy.1
    intro u hl hu
    rw [← lookup_bindingScope (x := x) (s := .var t true) (fun hEq => hy.2 hEq.symm)] at hl
    exact hMark u hl hu

theorem Observes.liftBind {x : Except String α} {f : α → Check β}
    (hf : ∀ a, x = .ok a → Observes Γ names (f a)) :
    Observes Γ names (liftM x >>= f) := by
  intro c b c' hRun
  obtain ⟨a, c₁, hm, hNext⟩ := bind_run_ok.1 hRun
  obtain ⟨a', hx, hEq⟩ := lift_run_ok.1 hm
  cases hEq
  exact hf _ hx _ b c' hNext

theorem callSignature_length {f : Name} {count : Nat} {r : List Ty × Bool × Ty}
    (h : callSignature f symbol count = .ok r) : count = r.1.length := by
  unfold callSignature at h
  split at h
  all_goals first
    | cases h
    | skip
  all_goals
    dsimp only at h
    split at h
    · cases h
      assumption
    · cases h

theorem resolveType_observes (Γ : Context) (text message : String) :
    Observes Γ [] (resolveType Γ text message) := by
  intro c t c' h
  simp only [resolveType, bind_run_ok, get_run_ok, Prod.mk.injEq] at h
  obtain ⟨_, _, ⟨rfl, rfl⟩, h⟩ := h
  cases hType : Γ.typeByName c text with
  | none =>
    rw [hType] at h
    cases throw_run_ok.1 h
  | some r =>
    rw [hType] at h
    obtain ⟨_, _, ⟨-, rfl⟩, -, rfl⟩ := h
    exact ⟨Context.typeByName_inserts hType, by simp⟩

theorem inferIdentifier_observes (Γ : Context) (x : Name) :
    Observes Γ [(x, false)] (inferIdentifier Γ x) := by
  intro c t c' h
  simp only [inferIdentifier, bind_run_ok, get_run_ok, Prod.mk.injEq] at h
  obtain ⟨_, _, ⟨rfl, rfl⟩, h⟩ := h
  have hMark : c' = c ∧ Marked Γ c x := by
    rcases hl : Γ.lookup c x with _ | ⟨s, isLocal⟩
    · rw [hl] at h
      cases throw_run_ok.1 h
    rw [hl] at h
    cases s with
    | var u b =>
      cases isLocal with
      | false =>
        cases pure_run_ok.1 h
        exact ⟨rfl, fun v hv => by simp [hl] at hv⟩
      | true =>
        -- The only symbols the tracker is asked about.
        dsimp only at h
        by_cases hFlag : (!u.isAggregate && c.isInitialized x == some false) = true
        · rw [if_pos hFlag] at h
          cases throw_run_ok.1 h
        · rw [if_neg hFlag] at h
          obtain ⟨-, rfl⟩ := Prod.mk.inj (pure_run_ok.1 h)
          refine ⟨rfl, fun v hv hAgg hFalse => hFlag ?_⟩
          obtain ⟨rfl, -⟩ : u = v ∧ b = false := by simpa [hl] using hv
          simp [hAgg, hFalse]
    | _ =>
      cases pure_run_ok.1 h
      exact ⟨rfl, fun v hv => by simp [hl] at hv⟩
  obtain ⟨rfl, hMark⟩ := hMark
  refine ⟨Inserts.refl _, fun y hy => ?_⟩
  obtain rfl : y = x := by simpa using hy
  exact hMark

theorem inferSizeof_observes (Γ : Context) (arguments : List Expr) :
    Observes Γ [] (inferSizeof Γ arguments) := by
  unfold inferSizeof
  split
  · exact (resolveType_observes Γ _ _).bind fun _ => Observes.pure _
  · exact Observes.throw _
  · exact Observes.throw _

theorem validateStaticAssert_observes (Γ : Context) (arguments : List Expr) :
    Observes Γ [] (validateStaticAssert Γ arguments) := by
  unfold validateStaticAssert
  split
  · refine Observes.get fun c => ?_
    split
    · exact Observes.throw _
    · exact (Observes.throw _).ite (Observes.pure _)
  · exact Observes.throw _

theorem functionNamed_marked {e : Expr} {r : List Ty × Ty} (h : functionNamed Γ c e = some r) :
    ∀ x, (x, false) ∈ occurrences e → Marked Γ c x := by
  cases e with
  | identifier y =>
    intro x hx t hl
    obtain rfl : x = y := by simpa [occurrences] using hx
    simp [functionNamed, hl] at h
  | _ => simp [functionNamed] at h

variable {binding : Option (Name × Ty)}

theorem checkPattern_binding {typeName : String} {variants : List (Name × Option Ty)}
    {covered covered' : List Nat} {pattern : Pattern}
    (h : checkPattern typeName variants covered pattern = .ok (covered', binding)) :
    binding.map Prod.fst = pattern.binding := by
  cases pattern with
  | default =>
    simp only [checkPattern, Except.ok.injEq, Prod.mk.injEq] at h
    simp [← h.2, Pattern.binding]
  | variant v b =>
    simp only [checkPattern] at h
    split at h
    · cases h
    split at h
    · cases h
    cases b with
    | none =>
      simp only [Except.ok.injEq, Prod.mk.injEq] at h
      simp [← h.2, Pattern.binding]
    | some x =>
      dsimp only at h
      split at h
      · cases h
      · simp only [Except.ok.injEq, Prod.mk.injEq] at h
        simp [← h.2, Pattern.binding]

mutual

theorem inferType_observes (Γ : Context) : ∀ e, Observes Γ (occurrences e) (inferType Γ e)
  | .numberLiteral _ _ => by
    simpa only [inferType, occurrences] using Observes.pure _
  | .floatLiteral _ => by
    simpa only [inferType, occurrences] using Observes.pure _
  | .stringLiteral _ => by
    simpa only [inferType, occurrences] using Observes.pure _
  | .identifier x => by
    simpa only [inferType, occurrences] using inferIdentifier_observes Γ x
  | .binaryExpression l op r => by
    refine (inferType_observes Γ l).bind fun left => ?_
    refine ((inferType_observes Γ r).bind fun right => Observes.lift _).mono ?_
    simp
  | .unaryExpression op e => by
    simp only [occurrences]
    cases op with
    | addressOf =>
      -- The address of a function names no local; any other operand is checked.
      intro c a c' h
      obtain ⟨_, _, hGet, h⟩ := bind_run_ok.1 h
      cases get_run_ok.1 hGet
      cases hf : functionNamed Γ c e with
      | some r =>
        rw [hf] at h
        cases pure_run_ok.1 h
        exact ⟨Inserts.refl _, functionNamed_marked hf⟩
      | none =>
        rw [hf] at h
        have hRest : Observes Γ (occurrences e ++ []) (do
            let t ← inferType Γ e
            resolveType Γ (t.name ++ "*") "Failed to resolve pointer type") :=
          (inferType_observes Γ e).bind fun t => resolveType_observes Γ _ _
        rw [append_nil] at hRest
        exact ((Observes.throw _).ite hRest) c a c' h
    | _ =>
      refine ((inferType_observes Γ e).bind fun t => Observes.lift _).mono ?_
      simp
  | .functionCall f arguments => by
    simp only [inferType, occurrences]
    by_cases hf : f = "sizeof"
    · subst hf
      simpa [isCompileTime] using inferSizeof_observes Γ arguments
    by_cases hf' : f = "static_assert"
    · subst hf'
      simpa [isCompileTime] using validateStaticAssert_observes Γ arguments
    have hCall : isCompileTime f = false := by simp [isCompileTime, hf, hf']
    rw [if_neg hf, if_neg hf']
    simp only [hCall, Bool.false_eq_true, if_false]
    refine Observes.get fun c => ?_
    split
    · exact Observes.throw _
    · refine Observes.liftBind fun r hr => ?_
      refine ((inferArguments_observes Γ r.2.1 arguments r.1 (callSignature_length hr)).bind
        fun _ => Observes.pure _).mono ?_
      simp
  | .methodCall object f arguments => by
    simp only [inferType, occurrences]
    by_cases hf : f = "sizeof"
    · subst hf
      simpa [isCompileTime] using inferSizeof_observes Γ arguments
    by_cases hf' : f = "static_assert"
    · subst hf'
      simpa [isCompileTime] using validateStaticAssert_observes Γ arguments
    have hCall : isCompileTime f = false := by simp [isCompileTime, hf, hf']
    rw [if_neg hf, if_neg hf']
    simp only [hCall, Bool.false_eq_true, if_false]
    refine (inferType_observes Γ object).bind fun receiver => ?_
    split
    · exact Observes.throw _
    · refine Observes.get fun c => ?_
      split
      · exact Observes.throw _
      · refine Observes.liftBind fun r hr => ?_
        have hLength := callSignature_length hr
        split
        · rename_i hNil
          simp [hNil] at hLength
        · rename_i parameter rest hCons
          have hRest : arguments.length = rest.length := by simpa [hCons] using hLength
          refine ((Observes.lift _).bind fun _ =>
            (inferArguments_observes Γ r.2.1 arguments rest hRest).bind
              fun _ => Observes.pure _).mono ?_
          simp
  | .funcPtrCall function arguments => by
    refine (inferType_observes Γ function).bind fun t => Observes.get fun c => ?_
    split
    · exact Observes.throw _
    · rename_i parameters returnType _
      by_cases hLength : arguments.length = parameters.length
      · rw [if_neg (by simpa using hLength)]
        refine ((inferArguments_observes Γ true arguments parameters hLength).bind
          fun _ => Observes.pure _).mono ?_
        simp
      · rw [if_pos hLength]
        exact Observes.throw _
  | .memberAccess object _ => by
    simp only [inferType, occurrences]
    refine ((inferType_observes Γ object).bind fun t => Observes.lift _).mono ?_
    simp
  | .indexExpression array index => by
    refine (inferType_observes Γ array).bind fun t => ?_
    refine ((inferType_observes Γ index).bind fun u => Observes.lift _).mono ?_
    simp
  | .newExpression _ => by
    refine Observes.get fun c => ?_
    split
    · exact resolveType_observes Γ _ _
    · exact Observes.throw _
  | .castExpression _ operand => by
    refine (resolveType_observes Γ _ _).bind fun target => ?_
    refine ((inferType_observes Γ operand).bind fun t =>
      (Observes.pure _).ite (Observes.throw _)).mono ?_
    simp
  | .matchExpression subject arms => by
    refine (inferType_observes Γ subject).bind fun t => ?_
    have hResult : ∀ result : Option Ty, Observes Γ [] (match result with
        | none => throw "match expression has no arms to determine a result type"
        | some type => pure type : Check Ty) := by
      intro result
      cases result with
      | none => exact Observes.throw _
      | some type => exact Observes.pure _
    refine ((Observes.lift _).bind fun variants =>
      (inferArms_observes Γ t.name variants arms [] none false).bind fun r =>
      (Observes.lift _).bind fun _ => hResult r.2.1).mono ?_
    simp

theorem inferArguments_observes (Γ : Context) (nullAllowed : Bool) :
    ∀ arguments parameters, arguments.length = parameters.length →
      Observes Γ (argumentOccurrences arguments) (inferArguments Γ nullAllowed arguments parameters)
  | [], _, _ => by
    simpa only [inferArguments, argumentOccurrences] using Observes.pure _
  | argument :: arguments, [], hLength => by simp at hLength
  | argument :: arguments, parameter :: parameters, hLength => by
    refine (inferType_observes Γ argument).bind fun t => (Observes.lift _).bind fun _ => ?_
    exact inferArguments_observes Γ nullAllowed arguments parameters (by simpa using hLength)

theorem inferArms_observes (Γ : Context) (typeName : String) (variants : List (Name × Option Ty)) :
    ∀ arms covered result seenDefault, Observes Γ (armOccurrences arms)
      (inferArms Γ typeName variants arms covered result seenDefault)
  | [], _, _, _ => by
    simpa only [inferArms, armOccurrences] using Observes.pure _
  | (pattern, body) :: arms, covered, result, seenDefault => by
    simp only [inferArms, armOccurrences]
    -- The pattern decides which name the arm's body does not take from outside.
    intro c a c' h
    obtain ⟨⟨covered', binding⟩, c₁, hPattern, h⟩ := bind_run_ok.1 h
    obtain ⟨r, hPat, hEq⟩ := lift_run_ok.1 hPattern
    cases hEq
    rw [← checkPattern_binding hPat]
    refine Observes.bind ((inferType_observes Γ body).withBinding binding) (fun t => ?_) c a c' h
    split
    · exact inferArms_observes Γ typeName variants arms _ _ _
    · exact (inferArms_observes Γ typeName variants arms _ _ _).ite (Observes.throw _)

end

-- ---
-- Statements
-- ---

/-- `c'` is `c` with types and constructors, and variables of the given names,
added to the current scope and the tracker; flags of tracked variables may have
changed. -/
structure Grows (names : List Name) (c c' : Checker) : Prop where
  tail : c'.scopes.tail = c.scopes.tail
  clean : Clean c.scopes → Clean c'.scopes
  vars : ∃ new, variablesOf c'.scopes = new ++ variablesOf c.scopes ∧ ∀ v ∈ new, v.1 ∈ names
  tracked : ∃ new, c'.tracked.map Tracked.name = new ++ c.tracked.map Tracked.name ∧
    ∀ x ∈ new, x ∈ names
  markers : c'.markers = c.markers

theorem Inserts.grows (h : Inserts c c') : Grows [] c c' where
  tail := h.tail
  clean := h.clean
  vars := ⟨[], by simp [h.vars], by simp⟩
  tracked := ⟨[], by simp [h.tracked], by simp⟩
  markers := h.markers

variable {names : List Name}

theorem Grows.trans {names' : List Name} {a b : Checker} (h : Grows names a b)
    (h' : Grows names' b c) : Grows (names ++ names') a c := by
  obtain ⟨new, hVars, hNames⟩ := h.vars
  obtain ⟨new', hVars', hNames'⟩ := h'.vars
  obtain ⟨t, hTracked, hIn⟩ := h.tracked
  obtain ⟨t', hTracked', hIn'⟩ := h'.tracked
  refine ⟨h'.tail.trans h.tail, fun hClean => h'.clean (h.clean hClean),
    ⟨new' ++ new, by rw [hVars', hVars, append_assoc], ?_⟩,
    ⟨t' ++ t, by rw [hTracked', hTracked, append_assoc], ?_⟩, h'.markers.trans h.markers⟩
  · intro v hv
    rcases mem_append.1 hv with hv | hv
    · exact mem_append_right _ (hNames' v hv)
    · exact mem_append_left _ (hNames v hv)
  · intro x hx
    rcases mem_append.1 hx with hx | hx
    · exact mem_append_right _ (hIn' x hx)
    · exact mem_append_left _ (hIn x hx)

theorem Grows.vars_nil (h : Grows [] c c') : variablesOf c'.scopes = variablesOf c.scopes := by
  obtain ⟨new, hVars, hNew⟩ := h.vars
  obtain rfl : new = [] := eq_nil_iff_forall_not_mem.2 fun v hv => by simpa using hNew v hv
  simpa using hVars

theorem Grows.names_nil (h : Grows [] c c') :
    c'.tracked.map Tracked.name = c.tracked.map Tracked.name := by
  obtain ⟨new, hTracked, hNew⟩ := h.tracked
  obtain rfl : new = [] := eq_nil_iff_forall_not_mem.2 fun v hv => by simpa using hNew v hv
  simpa using hTracked

/-- An action that declares variables of the given names in its scope. -/
def Declares {α : Type} (names : List Name) (m : Check α) : Prop :=
  ∀ c a c', m c = .ok (a, c') → Grows names c c'

section Declares

variable {α β : Type} {names names' : List Name} {m : Check α}

theorem Observes.declares {occ : List (Name × Bool)} (h : Observes Γ occ m) : Declares [] m :=
  fun c a c' hRun => (h c a c' hRun).1.grows

theorem Declares.mono (h : Declares names m) (hSub : ∀ x ∈ names, x ∈ names') :
    Declares names' m := by
  intro c a c' hRun
  obtain ⟨hTail, hClean, ⟨new, hVars, hNames⟩, ⟨t, hTracked, hIn⟩, hMarkers⟩ := h c a c' hRun
  exact ⟨hTail, hClean, ⟨new, hVars, fun v hv => hSub _ (hNames v hv)⟩,
    ⟨t, hTracked, fun x hx => hSub _ (hIn x hx)⟩, hMarkers⟩

theorem Declares.pure (a : α) : Declares [] (Pure.pure a : Check α) := by
  intro c b c' h
  cases pure_run_ok.1 h
  exact (Inserts.refl c).grows

theorem Declares.throw (message : String) : Declares names (throw message : Check α) :=
  fun _ _ _ h => (throw_run_ok.1 h).elim

theorem Declares.lift (x : Except String α) : Declares [] (liftM x : Check α) := by
  intro c b c' h
  obtain ⟨a, -, hr⟩ := lift_run_ok.1 h
  cases hr
  exact (Inserts.refl c).grows

theorem Declares.bind {f : α → Check β} (h : Declares names m)
    (hf : ∀ a, Declares names' (f a)) : Declares (names ++ names') (m >>= f) := by
  intro c b c' hRun
  obtain ⟨a, c₁, hm, hNext⟩ := bind_run_ok.1 hRun
  exact (h c a c₁ hm).trans (hf a c₁ b c' hNext)

theorem Declares.get (hf : ∀ c, Declares names (f c)) : Declares names (MonadState.get >>= f) := by
  intro c b c' hRun
  obtain ⟨a, c₁, hm, hNext⟩ := bind_run_ok.1 hRun
  cases get_run_ok.1 hm
  exact hf _ _ b c' hNext

theorem Declares.modify {f : Checker → Checker} (hf : ∀ c, Grows names c (f c)) :
    Declares names (modify f : Check PUnit) := by
  intro c b c' h
  cases modify_run_ok.1 h
  exact hf c

theorem Declares.ite {p : Prop} [Decidable p] {m' : Check α} (h : Declares names m)
    (h' : Declares names m') : Declares names (if p then m else m') := by
  split
  · exact h
  · exact h'

end Declares

theorem map_name_restore (tracked : List Tracked) (snapshot : List Bool) :
    (restore tracked snapshot).map Tracked.name = tracked.map Tracked.name := by
  have hZip : ∀ (l : List Tracked) (flags : List Bool), l.length = flags.length →
      (zipWith (fun v flag => { v with initialized := flag }) l flags).map Tracked.name =
        l.map Tracked.name := by
    intro l
    induction l with
    | nil => simp
    | cons v l ih =>
      intro flags hLength
      cases flags with
      | nil => simp at hLength
      | cons flag flags =>
        simp only [zipWith_cons_cons, map_cons]
        rw [ih flags (by simpa using hLength)]
  unfold restore
  simp only [map_append]
  rw [hZip _ _ (by simp only [length_drop]; omega), ← map_append, take_append_drop]

theorem map_name_setInitialized (x : Name) (tracked : List Tracked) :
    (setInitialized x tracked).map Tracked.name = tracked.map Tracked.name := by
  induction tracked with
  | nil => rfl
  | cons v rest ih =>
    unfold setInitialized
    split
    · rfl
    · simp [ih]

theorem Grows.of_tracked (hScopes : c'.scopes = c.scopes)
    (hTracked : c'.tracked.map Tracked.name = c.tracked.map Tracked.name)
    (hMarkers : c'.markers = c.markers) : Grows [] c c' :=
  ⟨by rw [hScopes], by rw [hScopes]; exact id, ⟨[], by simp [hScopes], by simp⟩,
    ⟨[], by simp [hTracked], by simp⟩, hMarkers⟩

theorem restoreSnapshot_declares (snapshot : List Bool) : Declares [] (restoreSnapshot snapshot) :=
  Declares.modify fun _ => Grows.of_tracked rfl (map_name_restore _ _) rfl

theorem Grows.exitScope (h : Grows names c.enterScope c') :
    c'.exitScope.scopes = c.scopes ∧ c'.exitScope.markers = c.markers ∧
      c'.exitScope.tracked.map Tracked.name = c.tracked.map Tracked.name := by
  obtain ⟨hTail, -, -, ⟨new, hTracked, -⟩, hMarkers⟩ := h
  refine ⟨hTail, ?_, ?_⟩
  · show c'.markers.tail = _
    rw [hMarkers]
    rfl
  · show (c'.tracked.drop (c'.tracked.length - c'.markers.headD 0)).map Tracked.name = _
    have hLength : c'.tracked.length = new.length + c.tracked.length := by
      have := congrArg length hTracked
      simpa [Checker.enterScope] using this
    rw [hMarkers, map_drop, hTracked]
    show (new ++ c.tracked.map Tracked.name).drop (c'.tracked.length - c.tracked.length) = _
    rw [hLength, Nat.add_sub_cancel, drop_left]

/-- **A block declares nothing outside itself.** -/
theorem block_declares {m : Check Unit} (h : Declares names m) : Declares [] (do
      modify Checker.enterScope
      m
      modify Checker.exitScope) := by
  intro c a c' hRun
  simp only [bind_run_ok, modify_run_ok, Prod.mk.injEq] at hRun
  obtain ⟨_, _, ⟨-, rfl⟩, _, c₁, hm, -, rfl⟩ := hRun
  obtain ⟨hScopes, hMarkers, hTracked⟩ := (h _ _ _ hm).exitScope
  exact Grows.of_tracked hScopes hTracked hMarkers

theorem withBinding_declares {m : Check α} (binding : Option (Name × Ty)) (h : Declares [] m)
    : Declares [] (withBinding binding m) := by
  cases binding with
  | none => exact h
  | some v =>
    intro c a c' hRun
    simp only [withBinding, bind_run_ok, modify_run_ok, pure_run_ok, Prod.mk.injEq] at hRun
    obtain ⟨_, c₁, ⟨-, rfl⟩, b, c₂, hm, _, c₃, ⟨-, rfl⟩, rfl, rfl⟩ := hRun
    obtain ⟨hTail, -, -, ⟨new, hTracked, hNew⟩, hMarkers⟩ := h _ _ _ hm
    obtain rfl : new = [] := eq_nil_iff_forall_not_mem.2 fun x hx => by simpa using hNew x hx
    exact Grows.of_tracked (by simpa using hTail) (by simpa using hTracked) hMarkers

theorem declareVariable_run (h : declareVariable x t c = .ok ((), c')) :
    variablesOf c'.scopes = (x, .var t false) :: variablesOf c.scopes ∧
      (Clean c.scopes → Clean c'.scopes) ∧ c'.scopes.tail = c.scopes.tail ∧
      c'.tracked = c.tracked ∧ c'.markers = c.markers := by
  obtain ⟨_, _, hGet, h⟩ := bind_run_ok.1 h
  cases get_run_ok.1 hGet
  cases hScopes : c.scopes with
  | nil =>
    rw [hScopes] at h
    cases throw_run_ok.1 h
  | cons scope rest =>
    rw [hScopes] at h
    dsimp only at h
    by_cases hSeen : (scope.lookup x).isSome = true
    · rw [if_pos hSeen] at h
      cases throw_run_ok.1 h
    rw [if_neg hSeen] at h
    cases set_run_ok.1 h
    have hInsert : (c.insert x (.var t false)).scopes = ((x, .var t false) :: scope) :: rest := by
      simp [Checker.insert, hScopes]
    have hVars : variablesOf (((x, Symbol.var t false) :: scope) :: rest) =
        (x, .var t false) :: variablesOf (scope :: rest) := by
      simp [variablesOf_cons, filter, Symbol.isVariable]
    have hFresh : x ∉ scope.map Prod.fst := by
      rw [← lookup_eq_none_iff_notMem]
      exact Option.not_isSome_iff_eq_none.1 hSeen
    rw [hInsert]
    refine ⟨hVars, fun hClean => ⟨?_, hClean.2⟩, rfl, ?_, ?_⟩
    · intro y s hMem hNotVar
      rw [hVars]
      rcases mem_cons.1 hMem with hEq | hMem
      · cases hEq
        simp [Symbol.isVariable] at hNotVar
      · simp only [map_cons, mem_cons, not_or]
        refine ⟨fun hEq => hFresh ?_, hClean.1 y s hMem hNotVar⟩
        exact hEq ▸ mem_map.2 ⟨(y, s), hMem, rfl⟩
    · simp [Checker.insert, hScopes]
    · simp [Checker.insert, hScopes]

theorem declareVariable_declares (x : Name) (t : Ty) : Declares [x] (declareVariable x t) := by
  intro c a c' h
  obtain ⟨hVars, hClean, hTail, hTracked, hMarkers⟩ := declareVariable_run h
  exact ⟨hTail, hClean, ⟨[(x, .var t false)], by simpa using hVars, by simp⟩,
    ⟨[], by simp [hTracked], by simp⟩, hMarkers⟩

theorem declaredType_observes (Γ : Context) (x : Name) (annotated : Option Ty)
    (initializer : Option Expr) :
    Observes Γ (initializer.toList.flatMap occurrences) (declaredType Γ x annotated initializer) := by
  cases initializer with
  | some e =>
    refine (inferType_observes Γ e).bind fun t => ?_
    cases annotated with
    | some t => exact (Observes.lift _).bind fun _ => Observes.pure _
    | none => exact Observes.pure _
  | none =>
    cases annotated with
    | some t => exact Observes.pure _
    | none => exact Observes.throw _

theorem resolveAnnotated_observes (Γ : Context) (text : Option String) :
    Observes Γ [] (resolveAnnotated Γ text) := by
  cases text with
  | some t => exact (resolveType_observes Γ _ _).bind fun _ => Observes.pure _
  | none => exact Observes.pure _

theorem processVarDeclaration_declares (Γ : Context) (x : Name) (typeName : Option String)
    (initializer : Option Expr) : Declares [x] (processVarDeclaration Γ x typeName initializer) := by
  have hTrack : ∀ t : Ty, Declares [x] (if t.isAggregate then pure () else
      modify fun c => c.declareTracked x initializer.isSome : Check Unit) := by
    intro t
    refine Declares.ite ((Declares.pure _).mono (by simp)) (Declares.modify fun c => ?_)
    exact ⟨rfl, id, ⟨[], rfl, by simp⟩, ⟨[x], rfl, by simp⟩, rfl⟩
  refine ((resolveAnnotated_observes Γ typeName).declares.bind fun annotated =>
    (declaredType_observes Γ x annotated initializer).declares.bind fun t =>
    (declareVariable_declares x t).bind fun _ => hTrack t).mono ?_
  simp

theorem processAssignment_declares (Γ : Context) (x : Name) (value : Expr) :
    Declares [] (processAssignment Γ x value) := by
  refine Declares.get fun c => ?_
  split
  · exact Declares.throw _
  · refine (inferType_observes Γ value).declares.bind fun t => (Declares.lift _).bind fun _ => ?_
    refine Declares.ite (Declares.modify fun c => ?_) (Declares.pure _)
    exact Grows.of_tracked rfl (map_name_setInitialized x _) rfl
  · exact Declares.throw _
  · exact Declares.throw _
  · exact Declares.throw _

theorem inferTarget_observes (Γ : Context) (target : Expr) :
    Observes Γ (occurrences target) (inferTarget Γ target) := by
  unfold inferTarget
  split
  · simp only [occurrences]
    refine ((inferType_observes Γ _).bind fun t => (?_ : Observes Γ [] _)).mono (by simp)
    split
    · exact Observes.lift _
    · exact Observes.lift _
    · exact Observes.throw _
  · exact inferType_observes Γ _
  · exact inferType_observes Γ _
  · exact Observes.throw _

theorem processTargetAssignment_observes (Γ : Context) (target value : Expr) :
    Observes Γ (occurrences target ++ occurrences value)
      (processTargetAssignment Γ target value) := by
  refine (inferTarget_observes Γ target).bind fun _ => ?_
  exact ((inferType_observes Γ value).bind fun _ => Observes.lift _).mono (by simp)

theorem checkExpressionStatement_declares (Γ : Context) (e : Expr) :
    Declares [] (checkExpressionStatement Γ e) := by
  unfold checkExpressionStatement
  split
  · exact (inferType_observes Γ _).declares.bind fun _ => Declares.pure _
  · exact (inferType_observes Γ _).declares.bind fun _ => Declares.pure _
  · exact (inferType_observes Γ _).declares.bind fun _ => Declares.pure _
  · exact Declares.throw _

theorem checkForInitializer_declares (Γ : Context) (initializer : Option Stmt) :
    ∃ names, Declares names (checkForInitializer Γ initializer) := by
  unfold checkForInitializer
  split
  · exact ⟨_, Declares.pure _⟩
  · exact ⟨_, processVarDeclaration_declares Γ _ _ _⟩
  · exact ⟨_, processAssignment_declares Γ _ _⟩
  · exact ⟨_, (processTargetAssignment_observes Γ _ _).declares⟩
  · exact ⟨_, (inferType_observes Γ _).declares.bind fun _ => Declares.pure _⟩
  · exact ⟨[], Declares.throw _⟩

theorem checkForIncrement_declares (Γ : Context) (increment : Option Stmt) :
    Declares [] (checkForIncrement Γ increment) := by
  unfold checkForIncrement
  split
  · exact Declares.pure _
  · exact (inferType_observes Γ _).declares.bind fun _ => Declares.pure _
  · exact (inferType_observes Γ _).declares.bind fun _ => Declares.pure _
  · exact (inferType_observes Γ _).declares.bind fun _ => Declares.pure _
  · exact Declares.throw _

theorem checkCondition_declares (Γ : Context) (e : Expr) : Declares [] (checkCondition Γ e) :=
  (inferType_observes Γ e).declares.bind fun _ => (Declares.pure _).ite (Declares.throw _)

theorem checkForCondition_declares (Γ : Context) (e : Option Expr) :
    Declares [] (checkForCondition Γ e) := by
  cases e with
  | none => exact Declares.pure _
  | some e => exact checkCondition_declares Γ e

theorem checkCaseValue_declares (Γ : Context) (switchType : Ty) (values : List Int) (e : Expr) :
    Declares [] (checkCaseValue Γ switchType values e) := by
  refine (inferType_observes Γ e).declares.bind fun t => ?_
  refine (Declares.throw _).ite ((Declares.throw _).ite (Declares.get fun c => ?_))
  split
  · exact Declares.throw _
  · exact (Declares.throw _).ite (Declares.pure _)

def bareNames (s : Stmt) : List Name := (bareDeclarations s).map Prod.fst

theorem enterLoop_declares : Declares [] (modify Checker.enterLoop : Check PUnit) :=
  Declares.modify fun _ => Grows.of_tracked rfl rfl rfl

theorem exitLoop_declares : Declares [] (modify Checker.exitLoop : Check PUnit) :=
  Declares.modify fun _ => Grows.of_tracked rfl rfl rfl

theorem enterSwitch_declares : Declares [] (modify Checker.enterSwitch : Check PUnit) :=
  Declares.modify fun _ => Grows.of_tracked rfl rfl rfl

theorem exitSwitch_declares : Declares [] (modify Checker.exitSwitch : Check PUnit) :=
  Declares.modify fun _ => Grows.of_tracked rfl rfl rfl

theorem bareDeclarations_of_isDeferrable {s : Stmt} (h : isDeferrable s = true) :
    bareDeclarations s = [] := by
  cases s <;> simp_all [isDeferrable, bareDeclarations]

mutual

theorem checkStatement_declares (Γ : Context) : ∀ s, Declares (bareNames s) (checkStatement Γ s)
  | .varDeclaration x t e => processVarDeclaration_declares Γ x t e
  | .assignment x e => processAssignment_declares Γ x e
  | .targetAssignment target e => (processTargetAssignment_observes Γ target e).declares
  | .expression e => checkExpressionStatement_declares Γ e
  | .returnStatement none => by
    exact Declares.pure _
  | .returnStatement (some e) => by
    exact (inferType_observes Γ e).declares.bind fun _ => Declares.lift _
  | .ifStatement condition thenBranch elseIfs elseBranch => by
    refine ((checkCondition_declares Γ condition).bind fun _ => Declares.get fun c =>
      (checkStatement_declares Γ thenBranch).bind fun _ =>
      (restoreSnapshot_declares _).bind fun _ =>
      (checkElseIfs_declares Γ _ elseIfs).bind fun _ =>
      (checkElse_declares Γ elseBranch).bind fun _ => restoreSnapshot_declares _).mono ?_
    simp [bareNames, bareDeclarations]
  | .whileStatement _ condition body => by
    refine ((checkCondition_declares Γ condition).bind fun _ => Declares.get fun c =>
      enterLoop_declares.bind fun _ => (checkStatement_declares Γ body).bind fun _ =>
      exitLoop_declares.bind fun _ => restoreSnapshot_declares _).mono ?_
    simp [bareNames, bareDeclarations]
  | .forStatement _ initializer condition increment body => by
    obtain ⟨names, hInit⟩ := checkForInitializer_declares Γ initializer
    have hInner := hInit.bind fun _ => Declares.get fun c =>
      (checkForCondition_declares Γ condition).bind fun _ =>
      (checkForIncrement_declares Γ increment).bind fun _ =>
      enterLoop_declares.bind fun _ => (checkStatement_declares Γ body).bind fun _ =>
      exitLoop_declares.bind fun _ => restoreSnapshot_declares (capture c.tracked)
    have hBlock := block_declares hInner
    simp only [bind_assoc] at hBlock
    exact hBlock
  | .switchStatement e cases => by
    refine (inferType_observes Γ e).declares.bind fun t => (Declares.throw _).ite ?_
    exact Declares.get fun c => enterSwitch_declares.bind fun _ =>
      (checkCases_declares Γ t _ cases [] false).bind fun _ =>
      exitSwitch_declares.bind fun _ =>
      (restoreSnapshot_declares _).bind fun _ => Declares.lift _
  | .matchStatement e arms => by
    exact (inferType_observes Γ e).declares.bind fun t => (Declares.lift _).bind fun variants =>
      (checkArms_declares Γ t.name variants arms [] false).bind fun _ => Declares.lift _
  | .breakStatement _ => by
    exact Declares.get fun _ => (Declares.throw _).ite (Declares.pure _)
  | .continueStatement _ => by
    exact Declares.get fun _ => (Declares.throw _).ite (Declares.pure _)
  | .deferStatement s => by
    simp only [checkStatement]
    split
    · rename_i hs
      refine (checkStatement_declares Γ s).mono ?_
      simp [bareNames, bareDeclarations_of_isDeferrable hs]
    · exact Declares.throw _
  | .errdeferStatement s => by
    simp only [checkStatement]
    split
    · rename_i hs
      refine (checkStatement_declares Γ s).mono ?_
      simp [bareNames, bareDeclarations_of_isDeferrable hs]
    · exact Declares.throw _
  | .inlineAsm _ => by
    exact Declares.pure _
  | .block statements => by
    exact block_declares (checkStatements_declares Γ statements)

theorem checkStatements_declares (Γ : Context) :
    ∀ l, Declares (l.flatMap bareNames) (checkStatements Γ l)
  | [] => Declares.pure _
  | s :: rest => by
    exact (checkStatement_declares Γ s).bind fun _ => checkStatements_declares Γ rest

theorem checkElseIfs_declares (Γ : Context) (snapshot : List Bool) :
    ∀ l, Declares ((bareElseIfs l).map Prod.fst) (checkElseIfs Γ snapshot l)
  | [] => Declares.pure _
  | (condition, body) :: rest => by
    refine ((checkCondition_declares Γ condition).bind fun _ =>
      (checkStatement_declares Γ body).bind fun _ =>
      (restoreSnapshot_declares snapshot).bind fun _ =>
      checkElseIfs_declares Γ snapshot rest).mono ?_
    simp [bareNames, bareElseIfs]

theorem checkElse_declares (Γ : Context) : ∀ s, Declares ((bareElse s).map Prod.fst) (checkElse Γ s)
  | none => Declares.pure _
  | some s => checkStatement_declares Γ s

theorem checkCases_declares (Γ : Context) (switchType : Ty) (snapshot : List Bool) :
    ∀ cases values seenDefault,
      Declares [] (checkCases Γ switchType snapshot cases values seenDefault)
  | [], _, _ => Declares.pure _
  | (none, body) :: cases, values, seenDefault => by
    refine (Declares.throw _).ite ?_
    have hBlock := block_declares (checkStatements_declares Γ body)
    have hRest := hBlock.bind fun _ => (restoreSnapshot_declares snapshot).bind fun _ =>
      checkCases_declares Γ switchType snapshot cases values true
    simp only [bind_assoc] at hRest
    exact hRest
  | (some e, body) :: cases, values, seenDefault => by
    refine (checkCaseValue_declares Γ switchType values e).bind fun values' => ?_
    have hBlock := block_declares (checkStatements_declares Γ body)
    have hRest := hBlock.bind fun _ => (restoreSnapshot_declares snapshot).bind fun _ =>
      checkCases_declares Γ switchType snapshot cases values' seenDefault
    simp only [bind_assoc] at hRest
    exact hRest

theorem checkArms_declares (Γ : Context) (typeName : String) (variants : List (Name × Option Ty)) :
    ∀ arms covered seenDefault, Declares [] (checkArms Γ typeName variants arms covered seenDefault)
  | [], _, _ => Declares.pure _
  | (pattern, body) :: arms, covered, seenDefault => by
    refine (Declares.lift _).bind fun r => ?_
    exact (withBinding_declares r.2 (block_declares (checkStatements_declares Γ body))).bind
      fun _ => checkArms_declares Γ typeName variants arms _ _

end

def checkBlock (Γ : Context) (body : List Stmt) : Check Unit := do
  modify Checker.enterScope
  checkStatements Γ body
  modify Checker.exitScope

def bindingScopes (binding : Option (Name × Ty)) (c : Checker) : Checker :=
  match binding with
  | none => c
  | some (x, t) => { c with scopes := [(x, .var t true)] :: c.scopes }

theorem checkBlock_run {l : List Stmt} (h : checkStatements Γ l c.enterScope = .ok ((), c')) :
    checkBlock Γ l c = .ok ((), c'.exitScope) := by
  simp only [checkBlock, bind_run_ok, modify_run_ok]
  exact ⟨_, _, rfl, _, _, h, rfl⟩

theorem checkBlock_grows {l : List Stmt} (h : checkBlock Γ l c = .ok ((), c')) : Grows [] c c' :=
  block_declares (checkStatements_declares Γ l) _ _ _ h

theorem withBinding_run {m : Check α} {a : α} (h : withBinding binding m c = .ok (a, c')) :
    ∃ c₁, m (bindingScopes binding c) = .ok (a, c₁) := by
  cases binding with
  | none => exact ⟨c', h⟩
  | some p =>
    simp only [withBinding, bind_run_ok, modify_run_ok, pure_run_ok, Prod.mk.injEq] at h
    obtain ⟨_, _, ⟨-, rfl⟩, _, c₁, hRun, _, _, -, rfl, -⟩ := h
    exact ⟨c₁, hRun⟩

end Mettle.Semantic

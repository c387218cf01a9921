import Mettle.Semantic.Monomorphize

/-!
# Mettle — method calls and bounds

A method call on a named receiver becomes a call of an impl function. Which one
depends on the type that the walk holds for the name: `CallScope` says what a walk
knows at each place, and two walks over one function give the same result if and only
if they know the same function at every call.

The source keeps one list of names for a whole function; what it holds is the last
declaration with a type that was walked before. The declaration that is visible is the
innermost one: a block, a loop, a clause and an arm end what is declared in them.
-/

namespace Mettle.Semantic

open Mettle.Parser List Option

-- ---
-- A walk over method calls
-- ---

/-- What a walk knows of the names in scope. -/
structure CallScope (E : Type) where
  /-- The function of a method call, from the receiver and the method. -/
  target : E → Text → Text → MethodTarget
  /-- On the way to child `i` of a node. -/
  enter : NodeData → Nat → E → E
  /-- For the children of a node behind a child. -/
  leave : NodeData → Tree → E → E
  /-- At a call, once its children were walked. -/
  own : E → List Tree → E

/-- A method call with its function in place, if there is one; `none` if it is
ambiguous. -/
def rewriteOwnCall (target : Text → Text → MethodTarget) (data : NodeData)
    (children : List Tree) : Option Tree :=
  match data with
  | .functionCall functionName typeArgs true =>
    match receiverName children with
    | none => some (.node data children)
    | some receiver =>
      match target receiver functionName with
      | .none => some (.node data children)
      | .ambiguous => none
      | .function mangled => some (.node (.functionCall mangled typeArgs false)
          (children.getLast?.toList ++ children.dropLast))
  | _ => some (.node data children)

section

variable {E : Type} (S : CallScope E)

mutual

def rewriteCalls : E → Tree → Option Tree
  | e, .node data children =>
    (rewriteCallsAll data e 0 children).bind fun rewritten =>
      rewriteOwnCall (S.target (S.own e children)) data rewritten

/-- The children of a node, from child `i` on. -/
def rewriteCallsAll (data : NodeData) : E → Nat → List Tree → Option (List Tree)
  | _, _, [] => some []
  | e, i, t :: ts =>
    (rewriteCalls (S.enter data i e) t).bind fun rewritten =>
      (rewriteCallsAll data (S.leave data t e) (i + 1) ts).map (rewritten :: ·)

end

end

section

variable {E₁ E₂ : Type} (S₁ : CallScope E₁) (S₂ : CallScope E₂)

def ownTargets (e₁ : E₁) (e₂ : E₂) (data : NodeData) (children : List Tree) :
    List (MethodTarget × MethodTarget) :=
  match data with
  | .functionCall functionName _ true =>
    (receiverName children).toList.map fun receiver =>
      (S₁.target (S₁.own e₁ children) receiver functionName,
        S₂.target (S₂.own e₂ children) receiver functionName)
  | _ => []

mutual

def callTargets : E₁ → E₂ → Tree → List (MethodTarget × MethodTarget)
  | e₁, e₂, .node data children =>
    callTargetsAll data e₁ e₂ 0 children ++ ownTargets S₁ S₂ e₁ e₂ data children

def callTargetsAll (data : NodeData) :
    E₁ → E₂ → Nat → List Tree → List (MethodTarget × MethodTarget)
  | _, _, _, [] => []
  | e₁, e₂, i, t :: ts =>
    callTargets (S₁.enter data i e₁) (S₂.enter data i e₂) t ++
      callTargetsAll data (S₁.leave data t e₁) (S₂.leave data t e₂) (i + 1) ts

end

end

-- ---
-- Receivers
-- ---

def identifierName : Tree → Option Text
  | .node (.identifier name) _ => some name
  | _ => none

theorem receiverName_eq (children : List Tree) :
    receiverName children = children.getLast?.bind identifierName := by
  induction children with
  | nil => rfl
  | cons t ts ih =>
    cases ts with
    | nil =>
      obtain ⟨data, cs⟩ := t
      cases data <;> rfl
    | cons u us => rw [getLast?_cons_cons, ← ih, receiverName]

section

variable {E : Type} {S : CallScope E}

theorem rewriteOwnCall_identifier {target : Text → Text → MethodTarget} {data : NodeData}
    {children : List Tree} {t : Tree} (h : rewriteOwnCall target data children = some t)
    (cs : List Tree) : identifierName t = identifierName (.node data cs) := by
  unfold rewriteOwnCall at h
  split at h
  · split at h
    · cases h
      rfl
    · split at h
      · cases h
        rfl
      · cases h
      · cases h
        rfl
  · cases h
    cases data <;> rfl

theorem rewriteCalls_identifier {e : E} {t t' : Tree} (h : rewriteCalls S e t = some t') :
    identifierName t' = identifierName t := by
  obtain ⟨data, children⟩ := t
  obtain ⟨rewritten, -, hOwn⟩ := bind_eq_some_iff.mp h
  exact rewriteOwnCall_identifier hOwn children

section

variable {data : NodeData} {e : E} {i : Nat} {ts ts' : List Tree}
  (h : rewriteCallsAll S data e i ts = some ts')
include h

theorem rewriteCallsAll_length : ts'.length = ts.length := by
  induction ts generalizing e i ts' with
  | nil =>
    cases h
    rfl
  | cons t ts ih =>
    obtain ⟨t', -, hOthers⟩ := bind_eq_some_iff.mp h
    obtain ⟨rest, hRest, rfl⟩ := map_eq_some_iff.mp hOthers
    rw [length_cons, length_cons, ih hRest]

theorem rewriteCallsAll_receiver : receiverName ts' = receiverName ts := by
  rw [receiverName_eq, receiverName_eq]
  induction ts generalizing e i ts' with
  | nil =>
    cases h
    rfl
  | cons t ts ih =>
    obtain ⟨t', hHead, hOthers⟩ := bind_eq_some_iff.mp h
    obtain ⟨rest, hRest, rfl⟩ := map_eq_some_iff.mp hOthers
    have hTail := ih hRest
    have hLength := rewriteCallsAll_length hRest
    cases ts with
    | nil =>
      cases hRest
      exact rewriteCalls_identifier hHead
    | cons u us =>
      cases rest with
      | nil => cases hLength
      | cons u' us' => rw [getLast?_cons_cons, getLast?_cons_cons, hTail]

end

end

-- ---
-- Two walks
-- ---

section

variable {E₁ E₂ : Type} {S₁ : CallScope E₁} {S₂ : CallScope E₂}

theorem rewriteOwnCall_eq_none_iff {e₁ : E₁} {e₂ : E₂} {data : NodeData}
    {children rewritten : List Tree} (hReceiver : receiverName rewritten = receiverName children) :
    rewriteOwnCall (S₁.target (S₁.own e₁ children)) data rewritten = none ↔
      ∃ p ∈ ownTargets S₁ S₂ e₁ e₂ data children, p.1 = .ambiguous := by
  unfold rewriteOwnCall ownTargets
  rw [hReceiver]
  split
  · cases receiverName children with
    | none => simp
    | some receiver =>
      dsimp only
      split <;> simp_all
  · simp

mutual

theorem rewriteCalls_eq_none_iff (e₁ : E₁) (e₂ : E₂) : ∀ t : Tree,
    rewriteCalls S₁ e₁ t = none ↔ ∃ p ∈ callTargets S₁ S₂ e₁ e₂ t, p.1 = .ambiguous
  | .node data children => by
    have hChildren := rewriteCallsAll_eq_none_iff data e₁ e₂ 0 children
    rw [rewriteCalls, callTargets]
    simp only [mem_append, or_and_right, exists_or]
    rw [← hChildren]
    cases hAll : rewriteCallsAll S₁ data e₁ 0 children with
    | none => simp
    | some rewritten =>
      have hOwn := @rewriteOwnCall_eq_none_iff _ _ S₁ S₂ e₁ e₂ data children rewritten
        (rewriteCallsAll_receiver hAll)
      rw [bind_some, hOwn]
      simp

theorem rewriteCallsAll_eq_none_iff (data : NodeData) (e₁ : E₁) (e₂ : E₂) (i : Nat) :
    ∀ ts : List Tree, rewriteCallsAll S₁ data e₁ i ts = none ↔
      ∃ p ∈ callTargetsAll S₁ S₂ data e₁ e₂ i ts, p.1 = .ambiguous
  | [] => by simp [rewriteCallsAll, callTargetsAll]
  | t :: ts => by
    have hHead := rewriteCalls_eq_none_iff (S₁.enter data i e₁) (S₂.enter data i e₂) t
    have hTail := rewriteCallsAll_eq_none_iff data (S₁.leave data t e₁) (S₂.leave data t e₂)
      (i + 1) ts
    rw [rewriteCallsAll, callTargetsAll]
    simp only [mem_append, or_and_right, exists_or]
    rw [← hHead, ← hTail]
    cases rewriteCalls S₁ (S₁.enter data i e₁) t with
    | none => simp
    | some t' => simp

end

theorem rewriteOwnCall_eq_iff {e₁ : E₁} {e₂ : E₂} {data : NodeData}
    {children c₁ c₂ : List Tree} {u₁ u₂ : Tree} (hLength : c₁.length = c₂.length)
    (hReceiver₁ : receiverName c₁ = receiverName children)
    (hReceiver₂ : receiverName c₂ = receiverName children)
    (h₁ : rewriteOwnCall (S₁.target (S₁.own e₁ children)) data c₁ = some u₁)
    (h₂ : rewriteOwnCall (S₂.target (S₂.own e₂ children)) data c₂ = some u₂) :
    u₁ = u₂ ↔ c₁ = c₂ ∧ ∀ p ∈ ownTargets S₁ S₂ e₁ e₂ data children, p.1 = p.2 := by
  -- moving the object to the front loses nothing
  have hMoved : c₁.getLast?.toList ++ c₁.dropLast = c₂.getLast?.toList ++ c₂.dropLast ↔
      c₁ = c₂ := by
    refine ⟨fun hSame => ?_, fun hSame => hSame ▸ rfl⟩
    rcases eq_nil_or_concat c₁ with rfl | ⟨front₁, last₁, rfl⟩
    · exact (length_eq_zero_iff.mp hLength.symm).symm
    · rcases eq_nil_or_concat c₂ with rfl | ⟨front₂, last₂, rfl⟩
      · simp at hLength
      · simp only [concat_eq_append, getLast?_append, getLast?_singleton,
          some_or, toList_some, dropLast_concat, cons_append,
          nil_append, cons.injEq] at hSame ⊢
        rw [hSame.1, hSame.2]
  have hNodes : ∀ {d : NodeData}, (.node d c₁ : Parser.Tree) = .node d c₂ ↔ c₁ = c₂ := by simp
  unfold rewriteOwnCall at h₁ h₂
  unfold ownTargets
  rw [hReceiver₁] at h₁
  rw [hReceiver₂] at h₂
  split at h₁
  · rename_i functionName typeArgs
    cases hName : receiverName children with
    | none =>
      simp only [hName, some.injEq] at h₁ h₂
      rw [← h₁, ← h₂, hNodes]
      simp
    | some receiver =>
      simp only [hName] at h₁ h₂
      simp only [toList_some, map_cons, map_nil, forall_mem_cons,
        not_mem_nil, false_implies, implies_true, and_true]
      cases hTarget₁ : S₁.target (S₁.own e₁ children) receiver functionName <;>
        cases hTarget₂ : S₂.target (S₂.own e₂ children) receiver functionName <;>
        simp only [hTarget₁, hTarget₂, some.injEq, reduceCtorEq] at h₁ h₂ <;>
        subst h₁ <;> subst h₂ <;> simp [hMoved, and_comm]
  · simp only [some.injEq] at h₁ h₂
    rw [← h₁, ← h₂, hNodes]
    simp

mutual

theorem rewriteCalls_inj (e₁ : E₁) (e₂ : E₂) : ∀ (t u₁ u₂ : Tree),
    rewriteCalls S₁ e₁ t = some u₁ → rewriteCalls S₂ e₂ t = some u₂ →
      (u₁ = u₂ ↔ ∀ p ∈ callTargets S₁ S₂ e₁ e₂ t, p.1 = p.2)
  | .node data children, u₁, u₂, h₁, h₂ => by
    obtain ⟨c₁, hAll₁, hOwn₁⟩ := bind_eq_some_iff.mp h₁
    obtain ⟨c₂, hAll₂, hOwn₂⟩ := bind_eq_some_iff.mp h₂
    have hLength := (rewriteCallsAll_length hAll₁).trans (rewriteCallsAll_length hAll₂).symm
    rw [rewriteOwnCall_eq_iff hLength (rewriteCallsAll_receiver hAll₁)
      (rewriteCallsAll_receiver hAll₂) hOwn₁ hOwn₂,
      rewriteCallsAll_inj data e₁ e₂ 0 children c₁ c₂ hAll₁ hAll₂, callTargets,
      forall_mem_append]

theorem rewriteCallsAll_inj (data : NodeData) (e₁ : E₁) (e₂ : E₂) (i : Nat) :
    ∀ (ts us₁ us₂ : List Tree), rewriteCallsAll S₁ data e₁ i ts = some us₁ →
      rewriteCallsAll S₂ data e₂ i ts = some us₂ →
        (us₁ = us₂ ↔ ∀ p ∈ callTargetsAll S₁ S₂ data e₁ e₂ i ts, p.1 = p.2)
  | [], us₁, us₂, h₁, h₂ => by
    cases h₁
    cases h₂
    simp [callTargetsAll]
  | t :: ts, us₁, us₂, h₁, h₂ => by
    obtain ⟨u₁, hHead₁, hOthers₁⟩ := bind_eq_some_iff.mp h₁
    obtain ⟨u₂, hHead₂, hOthers₂⟩ := bind_eq_some_iff.mp h₂
    obtain ⟨rest₁, hRest₁, rfl⟩ := map_eq_some_iff.mp hOthers₁
    obtain ⟨rest₂, hRest₂, rfl⟩ := map_eq_some_iff.mp hOthers₂
    rw [cons.injEq, rewriteCalls_inj _ _ t u₁ u₂ hHead₁ hHead₂,
      rewriteCallsAll_inj data _ _ (i + 1) ts rest₁ rest₂ hRest₁ hRest₂, callTargetsAll,
      forall_mem_append]

end

end

section

variable {E₁ E₂ : Type} {S₁ : CallScope E₁} {S₂ : CallScope E₂}

theorem ownTargets_swap (e₁ : E₁) (e₂ : E₂) (data : NodeData) (children : List Tree) :
    ownTargets S₂ S₁ e₂ e₁ data children =
      (ownTargets S₁ S₂ e₁ e₂ data children).map Prod.swap := by
  unfold ownTargets
  split <;> simp

mutual

theorem callTargets_swap (e₁ : E₁) (e₂ : E₂) : ∀ t : Tree,
    callTargets S₂ S₁ e₂ e₁ t = (callTargets S₁ S₂ e₁ e₂ t).map Prod.swap
  | .node data children => by
    rw [callTargets, callTargets, map_append, ownTargets_swap,
      callTargetsAll_swap data e₁ e₂ 0 children]

theorem callTargetsAll_swap (data : NodeData) (e₁ : E₁) (e₂ : E₂) (i : Nat) :
    ∀ ts : List Tree, callTargetsAll S₂ S₁ data e₂ e₁ i ts =
      (callTargetsAll S₁ S₂ data e₁ e₂ i ts).map Prod.swap
  | [] => rfl
  | t :: ts => by
    rw [callTargetsAll, callTargetsAll, map_append, callTargets_swap _ _ t,
      callTargetsAll_swap data _ _ (i + 1) ts]

end

/-- The walks know the same function at every call, or both fail. -/
def SameTargets (targets : List (MethodTarget × MethodTarget)) : Prop :=
  (∀ p ∈ targets, p.1 = p.2) ∨ (∃ p ∈ targets, p.1 = .ambiguous) ∧ ∃ p ∈ targets, p.2 = .ambiguous

/-- **Two walks give the same** if and only if they know the same function at every call, or
both fail at an ambiguous one. -/
theorem rewriteCallsAll_eq_iff (data : NodeData) (e₁ : E₁) (e₂ : E₂) (i : Nat) (ts : List Tree) :
    rewriteCallsAll S₁ data e₁ i ts = rewriteCallsAll S₂ data e₂ i ts ↔
      SameTargets (callTargetsAll S₁ S₂ data e₁ e₂ i ts) := by
  have hNone₁ := @rewriteCallsAll_eq_none_iff _ _ S₁ S₂ data e₁ e₂ i ts
  have hNone₂ : rewriteCallsAll S₂ data e₂ i ts = none ↔
      ∃ p ∈ callTargetsAll S₁ S₂ data e₁ e₂ i ts, p.2 = .ambiguous := by
    rw [@rewriteCallsAll_eq_none_iff _ _ S₂ S₁ data e₂ e₁ i ts, callTargetsAll_swap]
    simp
  cases h₁ : rewriteCallsAll S₁ data e₁ i ts with
  | none =>
    obtain ⟨p, hp, hAmbiguous⟩ := hNone₁.mp h₁
    constructor
    · intro hSame
      exact .inr ⟨⟨p, hp, hAmbiguous⟩, hNone₂.mp hSame.symm⟩
    · rintro (hAll | ⟨-, hOther⟩)
      · exact (hNone₂.mpr ⟨p, hp, (hAll p hp).symm.trans hAmbiguous⟩).symm
      · exact (hNone₂.mpr hOther).symm
  | some us₁ =>
    have hClear : ¬∃ p ∈ callTargetsAll S₁ S₂ data e₁ e₂ i ts, p.1 = .ambiguous := by
      rw [← hNone₁, h₁]
      exact some_ne_none us₁
    cases h₂ : rewriteCallsAll S₂ data e₂ i ts with
    | none =>
      obtain ⟨p, hp, hAmbiguous⟩ := hNone₂.mp h₂
      constructor
      · intro hSame
        cases hSame
      · rintro (hAll | ⟨hFirst, -⟩)
        · exact absurd ⟨p, hp, (hAll p hp).trans hAmbiguous⟩ hClear
        · exact absurd hFirst hClear
    | some us₂ =>
      rw [some.injEq, rewriteCallsAll_inj data e₁ e₂ i ts us₁ us₂ h₁ h₂]
      exact ⟨.inl, fun h => h.resolve_right fun hBoth => hClear hBoth.1⟩

end

-- ---
-- The walk of the source
-- ---

def ownDeclaration : NodeData → List (Text × Text)
  | .varDeclaration name (some typeName) _ => [(name, typeName)]
  | _ => []

mutual

def typedDeclarations : Tree → List (Text × Text)
  | .node data children => typedDeclarationsAll children ++ ownDeclaration data

def typedDeclarationsAll : List Tree → List (Text × Text)
  | [] => []
  | t :: ts => typedDeclarations t ++ typedDeclarationsAll ts

end

def sourceScope (impls : List TraitImpl) : CallScope (List (Text × Text)) where
  target earlier receiver method :=
    match earlier.lookup receiver with
    | none => .none
    | some typeName => monoFindImplForMethod impls typeName method
  enter _ _ earlier := earlier
  leave _ t earlier := (typedDeclarations t).reverse ++ earlier
  own earlier children := (typedDeclarationsAll children).reverse ++ earlier

/-- The environment holds the last declaration of each name. -/
def Tracks (env : MonoVarEnv) (earlier : List (Text × Text)) : Prop :=
  ∀ name, monoEnvLookup env name = earlier.lookup name

theorem lookup_map_update (env : MonoVarEnv) (name typeName other : Text) :
    (env.map fun item => if item.1 = name then (name, typeName) else item).lookup other =
      if other = name then (env.lookup other).map fun _ => typeName else env.lookup other := by
  induction env with
  | nil => simp
  | cons item env ih =>
    obtain ⟨key, value⟩ := item
    by_cases hKey : key = name
    · subst hKey
      by_cases hOther : other = key
      · simp [hOther]
      · simp [lookup_cons, hOther, beq_eq_false_iff_ne.mpr hOther, ih]
    · by_cases hOther : other = key
      · subst hOther
        simp [hKey]
      · simp [hKey, lookup_cons, beq_eq_false_iff_ne.mpr hOther, ih]

variable {env : MonoVarEnv}

theorem Tracks.add {earlier : List (Text × Text)} (h : Tracks env earlier) (name typeName : Text) :
    Tracks (monoEnvAdd env name (some typeName)) ((name, typeName) :: earlier) := by
  intro other
  have hOther := h other
  unfold monoEnvLookup at hOther ⊢
  simp only [monoEnvAdd]
  split
  · rename_i hFound
    rw [← map_reverse, lookup_map_update, lookup_cons]
    by_cases hSame : other = name
    · subst hSame
      obtain ⟨item, hItem, hKey⟩ := any_eq_true.mp hFound
      have hSome : (env.reverse.lookup other).isSome = true := by
        rw [lookup_isSome_iff]
        exact ⟨item, mem_reverse.mpr hItem, beq_iff_eq.mpr (eq_of_beq hKey).symm⟩
      obtain ⟨value, hValue⟩ := isSome_iff_exists.mp hSome
      simp [hValue]
    · simp [hSame, beq_eq_false_iff_ne.mpr hSame, hOther]
  · rw [reverse_append, lookup_append, lookup_cons]
    by_cases hSame : other = name
    · simp [hSame]
    · simp [beq_eq_false_iff_ne.mpr hSame, hOther]

theorem monoRewriteTraitMethodCall_toOption (impls : List TraitImpl)
    {env : MonoVarEnv} {earlier : List (Text × Text)} (h : Tracks env earlier)
    (data : NodeData) (children : List Tree) :
    (monoRewriteTraitMethodCall impls (monoEnvLookup env) data children).toOption =
      rewriteOwnCall (fun receiver method =>
        match earlier.lookup receiver with
        | none => .none
        | some typeName => monoFindImplForMethod impls typeName method) data children := by
  unfold monoRewriteTraitMethodCall rewriteOwnCall
  cases data with
  | functionCall functionName typeArgs hasObject =>
    cases hasObject with
    | false => rfl
    | true =>
      cases receiverName children with
      | none => rfl
      | some receiver =>
        dsimp only
        rw [h receiver]
        cases earlier.lookup receiver with
        | none => rfl
        | some typeName =>
          dsimp only
          cases monoFindImplForMethod impls typeName functionName <;> rfl
  | _ => rfl

section

variable {impls : List TraitImpl}

mutual

/-- **The walk of the source** goes by the last declaration before each call. -/
theorem source_walk {env : MonoVarEnv} {earlier : List (Text × Text)} (h : Tracks env earlier) :
    ∀ t : Tree, (monoRewriteTraitMethodCallsInNode impls env t).toOption.map Prod.fst =
        rewriteCalls (sourceScope impls) earlier t ∧
      ∀ t' env', monoRewriteTraitMethodCallsInNode impls env t = .ok (t', env') →
        Tracks env' ((typedDeclarations t).reverse ++ earlier)
  | .node data children => by
    obtain ⟨hWalk, hTracks⟩ := source_walkAll h data 0 children
    rw [monoRewriteTraitMethodCallsInNode, rewriteCalls]
    rw [← hWalk]
    cases hChildren : monoRewriteTraitMethodCallsInAll impls env children with
    | error message => exact ⟨rfl, fun t' env' hOk => by cases hOk⟩
    | ok result =>
      obtain ⟨rewritten, env₁⟩ := result
      have hOwn := hTracks rewritten env₁ hChildren
      have hCall := monoRewriteTraitMethodCall_toOption impls hOwn data rewritten
      rw [typedDeclarations]
      cases data with
      | functionCall functionName typeArgs hasObject =>
        dsimp only [Except.toOption, map_some, bind_some, ownDeclaration]
        constructor
        · rw [show (sourceScope impls).own earlier children =
            (typedDeclarationsAll children).reverse ++ earlier from rfl]
          refine Eq.trans ?_ hCall
          cases monoRewriteTraitMethodCall impls (monoEnvLookup env₁)
            (.functionCall functionName typeArgs hasObject) rewritten <;> rfl
        · intro t' env' hOk
          rw [append_nil]
          cases hResult : monoRewriteTraitMethodCall impls (monoEnvLookup env₁)
              (.functionCall functionName typeArgs hasObject) rewritten with
          | error message =>
            rw [hResult] at hOk
            cases hOk
          | ok u =>
            rw [hResult] at hOk
            cases hOk
            exact hOwn
      | varDeclaration name typeName isExported =>
        refine ⟨rfl, fun t' env' hOk => ?_⟩
        cases hOk
        cases typeName with
        | none =>
          rw [ownDeclaration, append_nil]
          · exact hOwn
          · exact fun _ _ _ h => by cases h
        | some typeName =>
          rw [ownDeclaration, reverse_append, append_assoc]
          exact hOwn.add name typeName
      | _ =>
        refine ⟨rfl, fun t' env' hOk => ?_⟩
        cases hOk
        dsimp only [ownDeclaration]
        rw [append_nil]
        exact hOwn

theorem source_walkAll {env : MonoVarEnv} {earlier : List (Text × Text)}
    (h : Tracks env earlier) (data : NodeData) (i : Nat) : ∀ ts : List Tree,
      (monoRewriteTraitMethodCallsInAll impls env ts).toOption.map Prod.fst =
        rewriteCallsAll (sourceScope impls) data earlier i ts ∧
      ∀ ts' env', monoRewriteTraitMethodCallsInAll impls env ts = .ok (ts', env') →
        Tracks env' ((typedDeclarationsAll ts).reverse ++ earlier)
  | [] => by
    refine ⟨rfl, fun ts' env' hOk => ?_⟩
    cases hOk
    exact h
  | t :: ts => by
    obtain ⟨hWalk, hTracks⟩ := source_walk h t
    rw [monoRewriteTraitMethodCallsInAll, rewriteCallsAll]
    simp only [sourceScope] at hWalk ⊢
    rw [← hWalk]
    cases hHead : monoRewriteTraitMethodCallsInNode impls env t with
    | error message => exact ⟨rfl, fun ts' env' hOk => by cases hOk⟩
    | ok result =>
      obtain ⟨t', env₁⟩ := result
      have hNext := hTracks t' env₁ hHead
      obtain ⟨hRest, hRestTracks⟩ := source_walkAll hNext data (i + 1) ts
      simp only [sourceScope] at hRest
      dsimp only [Except.toOption, map_some, bind_some]
      rw [← hRest]
      cases hTail : monoRewriteTraitMethodCallsInAll impls env₁ ts with
      | error message => exact ⟨rfl, fun ts' env' hOk => by cases hOk⟩
      | ok result =>
        obtain ⟨ts', env₂⟩ := result
        refine ⟨rfl, fun us env' hOk => ?_⟩
        cases hOk
        have hAll := hRestTracks ts' env₂ hTail
        rw [typedDeclarationsAll, reverse_append, append_assoc]
        exact hAll

end

end

-- ---
-- The visible declaration
-- ---

def declaredHere : Tree → List (Text × Option Text)
  | .node (.varDeclaration name typeName _) _ => [(name, typeName)]
  | _ => []

def implForMethod (impls : List TraitImpl) (typeName methodName : Text) : MethodTarget :=
  match impls.filter fun impl => rewriteGenericTypeName impl.forTypeName == typeName &&
      (monoFindFunctionMethod impl.methods methodName).isSome with
  | [] => .none
  | [impl] => .function (mangleImplMethodName impl.traitName impl.forTypeName methodName)
  | _ => .ambiguous

def visibleScope (impls : List TraitImpl) : CallScope (List (Text × Option Text)) where
  target scope receiver method :=
    match (scope.lookup receiver).join with
    | none => .none
    | some typeName => implForMethod impls typeName method
  enter data i scope :=
    match data with
    -- child `i + 1` of a match is the body of arm `i`
    | .matchStatement arms _ =>
      if i = 0 then scope
      else ((arms[i - 1]?.bind fun arm => arm.bindingName).toList.map fun name => (name, none)) ++
        scope
    | _ => scope
  leave data t scope :=
    match data with
    | .program => declaredHere t ++ scope
    | .forStatement _ => declaredHere t ++ scope
    | _ => scope
  own scope _ := scope

def globalScope (declarations : List Tree) : List (Text × Option Text) :=
  declarations.reverse.flatMap declaredHere

def parameterTypesOf (header : FunctionHeader) : List (Text × Text) :=
  (header.parameterNames.zip header.parameterTypes).reverse

def functionScope (declarations : List Tree) (header : FunctionHeader) :
    List (Text × Option Text) :=
  (parameterTypesOf header).map (fun parameter => (parameter.1, some parameter.2)) ++
    globalScope declarations

section

variable (impls : List TraitImpl) (declarations : List Tree) (header : FunctionHeader)
  (body : List Tree)

/-- **Calls by the visible declaration.** -/
def CallsResolved : Prop :=
  (monoRewriteTraitMethodCallsInFunction impls header body).toOption =
    (rewriteCallsAll (visibleScope impls) (.functionDeclaration header)
      (functionScope declarations header) 0 body).map (.node (.functionDeclaration header))

/-- At every method call, the last declaration before it and the visible one stand for the
same function, or both ways there is an ambiguous call. -/
def LastIsVisible : Prop :=
  SameTargets (callTargetsAll (sourceScope impls) (visibleScope impls)
    (.functionDeclaration header) (parameterTypesOf header) (functionScope declarations header)
    0 body)

end

theorem tracks_parameters (parameters earlier : List (Text × Text)) (h : Tracks env earlier) :
    Tracks (parameters.foldl (fun env parameter => monoEnvAdd env parameter.1 (some parameter.2))
      env) (parameters.reverse ++ earlier) := by
  induction parameters generalizing env earlier with
  | nil => exact h
  | cons parameter parameters ih =>
    rw [foldl_cons, reverse_cons, append_assoc]
    exact ih _ (h.add parameter.1 parameter.2)

/-- The calls of a function: the last declaration and the visible one. -/
theorem callsResolved_iff (impls : List TraitImpl) (declarations : List Tree)
    (header : FunctionHeader) (body : List Tree) :
    CallsResolved impls declarations header body ↔
      LastIsVisible impls declarations header body := by
  have hStart : Tracks ((header.parameterNames.zip header.parameterTypes).foldl
      (fun env parameter => monoEnvAdd env parameter.1 (some parameter.2)) [])
      (parameterTypesOf header) := by
    have hNothing : Tracks [] [] := fun name => rfl
    have hParameters :=
      tracks_parameters (header.parameterNames.zip header.parameterTypes) [] hNothing
    rw [append_nil] at hParameters
    exact hParameters
  have hWalk := (@source_walkAll impls _ _ hStart (.functionDeclaration header) 0 body).1
  unfold CallsResolved LastIsVisible
  rw [← rewriteCallsAll_eq_iff, ← hWalk, monoRewriteTraitMethodCallsInFunction]
  generalize monoRewriteTraitMethodCallsInAll impls _ body = result
  generalize rewriteCallsAll (visibleScope impls) _ _ 0 body = visible
  cases result with
  | error message => cases visible <;> simp [Except.toOption, Except.map]
  | ok result => cases visible <;> simp [Except.toOption, Except.map]

-- ---
-- Bounds
-- ---

/-- `parser_append_type_param_bound`. -/
def appendTypeParamBound (bounds : Option Text) (traitName : Text) : Option Text :=
  match bounds with
  | none => some traitName
  | some bounds => some (bounds ++ '+' :: traitName)

/-- The bound `T1 + ... + Tn` as the parser holds it. -/
def boundText (traits : List Text) : Option Text := traits.foldl appendTypeParamBound none

def IsTraitName (name : Text) : Prop :=
  name ≠ [] ∧ ∀ c ∈ name, c ≠ '+' ∧ isBlank c = false

variable {name : Text}

theorem trim_traitName (h : IsTraitName name) : (name.dropWhile isBlank).rdropWhile isBlank = name
    := by
  have hFront : name.dropWhile isBlank = name := by
    rw [dropWhile_eq_self_iff]
    intro hLength
    exact Bool.eq_false_iff.mp (h.2 _ (getElem_mem hLength)).2
  have hBack : name.rdropWhile isBlank = name := by
    rw [rdropWhile_eq_self_iff]
    intro hNonempty
    exact Bool.eq_false_iff.mp (h.2 _ (getLast_mem hNonempty)).2
  rw [hFront, hBack]

theorem splitOnP_traitName (h : IsTraitName name) : name.splitOnP (· == '+') = [name] :=
  splitOnP_eq_singleton fun c hc => beq_eq_false_iff_ne.mpr (h.2 c hc).1

theorem monoSplitBounds_boundText {traits : List Text}
    (h : ∀ trait ∈ name :: traits, IsTraitName trait) :
    ∃ bounds, boundText (name :: traits) = some bounds ∧
      monoSplitBounds bounds = name :: traits := by
  -- each name that is joined on is one more piece
  have hJoined : ∀ (more : List Text) (bounds : Text), (∀ trait ∈ more, IsTraitName trait) →
      ∃ bounds', more.foldl appendTypeParamBound (some bounds) = some bounds' ∧
        bounds'.splitOnP (· == '+') = bounds.splitOnP (· == '+') ++ more := by
    intro more
    induction more with
    | nil => exact fun bounds _ => ⟨bounds, rfl, by rw [append_nil]⟩
    | cons trait more ih =>
      intro bounds hMore
      rw [forall_mem_cons] at hMore
      obtain ⟨bounds', hFold, hSplit⟩ := ih (bounds ++ '+' :: trait) hMore.2
      refine ⟨bounds', hFold, ?_⟩
      have hPiece := @splitOnP_append_cons _ (· == '+') bounds trait '+' rfl
      rw [hSplit, hPiece, splitOnP_traitName hMore.1, append_assoc, singleton_append]
  have hAll := h
  rw [forall_mem_cons] at h
  obtain ⟨bounds, hFold, hSplit⟩ := hJoined traits name h.2
  refine ⟨bounds, hFold, ?_⟩
  rw [monoSplitBounds, hSplit, splitOnP_traitName h.1, singleton_append]
  have hTrim : (name :: traits).map (fun piece => (piece.dropWhile isBlank).rdropWhile isBlank) =
      name :: traits :=
    (map_congr_left fun trait hTrait => trim_traitName (hAll trait hTrait)).trans (map_id _)
  rw [hTrim, filter_eq_self]
  intro trait hTrait
  exact bne_iff_ne.mpr (hAll trait hTrait).1

-- ---
-- The impls of a program
-- ---

def implOf : Tree → List TraitImpl
  | .node (.implDeclaration traitName forTypeName) methods => [⟨traitName, forTypeName, methods⟩]
  | _ => []

theorem collectDef_spec (ctx : MonoContext) (decl : Tree) :
    (collectDef ctx decl).traits = ctx.traits ∧
      ∃ errors, (collectDef ctx decl).errors = ctx.errors ++ errors ∧
        (errors = [] → (collectDef ctx decl).impls = ctx.impls ++ implOf decl) ∧
        ∀ impl ∈ (collectDef ctx decl).impls, impl ∈ ctx.impls ∨
          monoHasTrait ctx impl.traitName = true := by
  unfold collectDef
  split
  · unfold monoAddImpl
    split
    · exact ⟨rfl, [_], rfl, fun h => absurd h (cons_ne_nil _ _), fun impl hImpl => .inl hImpl⟩
    · rename_i trait hTrait
      split
      · exact ⟨rfl, [_], rfl, fun h => absurd h (cons_ne_nil _ _), fun impl hImpl => .inl hImpl⟩
      · refine ⟨rfl, _, rfl, fun _ => rfl, fun impl hImpl => ?_⟩
        refine (mem_append.mp hImpl).imp_right fun hNew => ?_
        rw [mem_singleton] at hNew
        subst hNew
        have hName := find?_some hTrait
        exact any_eq_true.mpr ⟨trait, mem_of_find?_eq_some hTrait, hName⟩
  · split
    · exact ⟨rfl, [], by simp, fun _ => by simp [implOf], fun impl hImpl => .inl hImpl⟩
    · exact ⟨rfl, _, rfl, fun _ => by simp [implOf, addGenericDef, MonoContext.reportAll],
        fun impl hImpl => .inl hImpl⟩
  · split
    · exact ⟨rfl, [], by simp, fun _ => by simp [implOf], fun impl hImpl => .inl hImpl⟩
    · exact ⟨rfl, _, rfl, fun _ => by simp [implOf, addGenericDef, MonoContext.reportAll],
        fun impl hImpl => .inl hImpl⟩
  · rename_i hNot _ _
    refine ⟨rfl, [], by simp, fun _ => ?_, fun impl hImpl => .inl hImpl⟩
    have hNone : implOf decl = [] := by
      unfold implOf
      split
      · exact (hNot _ _ _ rfl).elim
      · rfl
    rw [hNone, append_nil]

variable {declarations : List Tree}

/-- Without an error the impls are those declared, each of a trait. -/
theorem collectGenericDefs_impls (h : (collectGenericDefs declarations).errors = []) :
    (collectGenericDefs declarations).impls = declarations.flatMap implOf ∧
      ∀ impl ∈ (collectGenericDefs declarations).impls,
        monoHasTrait (collectGenericDefs declarations) impl.traitName = true := by
  have hFold : ∀ (ds : List Tree) (ctx : MonoContext), (ds.foldl collectDef ctx).errors = [] →
      (∀ impl ∈ ctx.impls, monoHasTrait ctx impl.traitName = true) →
      (ds.foldl collectDef ctx).impls = ctx.impls ++ ds.flatMap implOf ∧
        ∀ impl ∈ (ds.foldl collectDef ctx).impls,
          monoHasTrait (ds.foldl collectDef ctx) impl.traitName = true := by
    intro ds
    induction ds with
    | nil => exact fun ctx _ hKnown => ⟨by simp, hKnown⟩
    | cons d ds ih =>
      intro ctx hErrors hKnown
      obtain ⟨hTraits, errors, hMore, hImpls, hNew⟩ := collectDef_spec ctx d
      -- errors are never taken back
      have hGrow : ∀ (ds : List Tree) (ctx : MonoContext),
          ctx.errors <+: (ds.foldl collectDef ctx).errors := by
        intro ds
        induction ds with
        | nil => exact fun ctx => prefix_rfl
        | cons d ds ih =>
          intro ctx
          obtain ⟨-, errors, hMore, -⟩ := collectDef_spec ctx d
          exact (hMore ▸ prefix_append _ _).trans (ih _)
      rw [foldl_cons] at hErrors ⊢
      have hHere : (collectDef ctx d).errors = [] :=
        prefix_nil.mp (hErrors ▸ hGrow ds (collectDef ctx d))
      rw [hMore, append_eq_nil_iff] at hHere
      have hSame : ∀ name, monoHasTrait (collectDef ctx d) name = monoHasTrait ctx name := by
        intro name
        unfold monoHasTrait
        rw [hTraits]
      obtain ⟨hAll, hAllKnown⟩ := ih (collectDef ctx d) hErrors fun impl hImpl => by
        rw [hSame]
        exact (hNew impl hImpl).elim (hKnown impl) id
      refine ⟨?_, hAllKnown⟩
      rw [hAll, hImpls hHere.2, flatMap_cons, append_assoc]
  have hTraitsOnly : ∀ (ds : List Tree) (ctx : MonoContext), ctx.impls = [] →
      (ds.foldl collectTrait ctx).impls = [] := by
    intro ds
    induction ds with
    | nil => exact fun ctx h => h
    | cons d ds ih =>
      refine fun ctx h => ih _ ?_
      unfold collectTrait
      split
      · unfold monoAddTrait
        split <;> exact h
      · exact h
  have hNone := hTraitsOnly declarations {} rfl
  obtain ⟨hAll, hKnown⟩ := hFold declarations _ h (by
    rw [hNone]
    exact fun impl hImpl => absurd hImpl not_mem_nil)
  rw [hNone, nil_append] at hAll
  exact ⟨hAll, hKnown⟩

section

variable (declarations : List Tree) (traits : List Text) (typeArg : Text)

/-- The program has an impl of the trait for the type, under whichever name the type goes. -/
def HasImplFor (traitName : Text) : Prop :=
  ∃ impl ∈ declarations.flatMap implOf, impl.traitName = traitName ∧
    rewriteGenericTypeName impl.forTypeName = rewriteGenericTypeName typeArg

/-- **Bounds against impls.** -/
def BoundsChecked : Prop := ∀ defName,
  monoTypeSatisfiesBounds (collectGenericDefs declarations) defName typeArg (boundText traits) =
    none ↔ ∀ trait ∈ traits, HasImplFor declarations typeArg trait

def ImplsWritten : Prop :=
  (∀ trait ∈ traits, HasImplFor declarations typeArg trait) →
    ∀ trait ∈ traits, ∃ impl ∈ declarations.flatMap implOf,
      impl.traitName = trait ∧ impl.forTypeName = typeArg

end

theorem monoTypeSatisfiesBounds_eq_none_iff
    (hErrors : (collectGenericDefs declarations).errors = []) {traits : List Text}
    (hNames : ∀ trait ∈ name :: traits, IsTraitName trait) (defName typeArg : Text) :
    monoTypeSatisfiesBounds (collectGenericDefs declarations) defName typeArg
        (boundText (name :: traits)) = none ↔
      ∀ trait ∈ name :: traits, ∃ impl ∈ declarations.flatMap implOf,
        impl.traitName = trait ∧ impl.forTypeName = typeArg := by
  obtain ⟨bounds, hText, hSplit⟩ := monoSplitBounds_boundText hNames
  obtain ⟨hImpls, hKnown⟩ := collectGenericDefs_impls hErrors
  rw [hText, monoTypeSatisfiesBounds, hSplit, if_neg (cons_ne_nil _ _), findSome?_eq_none_iff]
  refine forall₂_congr fun trait _ => ?_
  have hImplements : monoTypeImplementsTrait (collectGenericDefs declarations) trait typeArg =
      true ↔ ∃ impl ∈ declarations.flatMap implOf,
        impl.traitName = trait ∧ impl.forTypeName = typeArg := by
    unfold monoTypeImplementsTrait
    rw [hImpls, List.any_eq_true]
    simp
  rw [← hImplements, boundError]
  constructor
  · intro hNone
    by_contra hMissing
    rw [Bool.not_eq_true] at hMissing
    rw [hMissing] at hNone
    split at hNone <;> cases hNone
  · intro hHas
    -- a trait with an impl is known
    obtain ⟨impl, hImpl, rfl, -⟩ := hImplements.mp hHas
    rw [← hImpls] at hImpl
    rw [hKnown impl hImpl, hHas]
    rfl

/-- **Method calls and bounds.** Method calls get the impl function for the visible
declaration if and only if the last declaration before the call stands for the same one. A
bound is checked against the impls of the program if and only if those it needs are written
for the text that the argument has. -/
theorem trait_resolution_iff (declarations : List Tree) :
    (∀ impls globals header body, CallsResolved impls globals header body ↔
      LastIsVisible impls globals header body) ∧
    ((collectGenericDefs declarations).errors = [] → ∀ name traits typeArg,
      (∀ trait ∈ name :: traits, IsTraitName trait) →
        (BoundsChecked declarations (name :: traits) typeArg ↔
          ImplsWritten declarations (name :: traits) typeArg)) := by
  refine ⟨callsResolved_iff, fun hErrors name traits typeArg hNames => ?_⟩
  have hCheck := fun defName =>
    monoTypeSatisfiesBounds_eq_none_iff hErrors hNames defName typeArg
  constructor
  · intro hChecked hHas
    exact (hCheck []).mp ((hChecked []).mpr hHas)
  · intro hWritten defName
    rw [hCheck defName]
    refine ⟨fun hAll trait hTrait => ?_, hWritten⟩
    obtain ⟨impl, hImpl, hName, hType⟩ := hAll trait hTrait
    exact ⟨impl, hImpl, hName, by rw [hType]⟩

/-- `trait S {} trait P {} impl S for A {} impl P for A {}` -/
def plainImpls : List Tree :=
  [.node (.traitDeclaration ['S'] false) [], .node (.traitDeclaration ['P'] false) [],
    .node (.implDeclaration ['S'] ['A']) [], .node (.implDeclaration ['P'] ['A']) []]

theorem trait_resolution_iff_plain : BoundsChecked plainImpls [['S'], ['P']] ['A'] := by
  refine ((trait_resolution_iff plainImpls).2 rfl ['S'] [['P']] ['A'] ?_).mpr ?_
  · simp [IsTraitName, isBlank]
  · intro _ trait hTrait
    rcases mem_pair.mp hTrait with rfl | rfl
    · exact ⟨⟨['S'], ['A'], []⟩, by simp [plainImpls, implOf], rfl, rfl⟩
    · exact ⟨⟨['P'], ['A'], []⟩, by simp [plainImpls, implOf], rfl, rfl⟩

-- ---
-- Where they go wrong
-- ---

def headerOf (name : Text) : FunctionHeader :=
  { name := name, parameterNames := [], parameterTypes := [], returnType := none }

/-- `impl M for A { function m() {} }` and `impl M for B { function m() {} }`. -/
def twoImpls : List TraitImpl :=
  [⟨['M'], ['A'], [.node (.functionDeclaration (headerOf ['m'])) []]⟩,
    ⟨['M'], ['B'], [.node (.functionDeclaration (headerOf ['m'])) []]⟩]

/-- `{ var x: A; { var x: B; } x.m(); }` -/
def innerVariable : List Tree :=
  [.node .program [.node (.varDeclaration ['x'] (some ['A']) false) [],
    .node .program [.node (.varDeclaration ['x'] (some ['B']) false) []],
    .node (.functionCall ['m'] [] true) [.node (.identifier ['x']) []]]]

def calledFunctions : Tree → List Text := Tree.collect fun data =>
  match data with
  | .functionCall functionName _ _ => [functionName]
  | _ => []

/-- `trait S {} impl S for Box<int32> {}` -/
def boxImpl : List Tree :=
  [.node (.traitDeclaration ['S'] false) [], .node (.implDeclaration ['S'] "Box<int32>".toList) []]

/-- The call goes to the impl for the variable of the inner block; and a bound does not find
the impl for a type that is named by its instance. -/
theorem not_trait_resolution : ¬CallsResolved twoImpls [] (headerOf "main".toList) innerVariable ∧
      ¬BoundsChecked boxImpl [['S']] "Box__int32".toList := by
  constructor
  · intro h
    have hCalls := congrArg (Option.map calledFunctions) h
    revert hCalls
    decide
  · intro h
    have hAccepted := (h []).mpr fun trait hTrait => by
      rw [mem_singleton] at hTrait
      subst hTrait
      exact ⟨_, mem_cons_self, rfl, by decide⟩
    revert hAccepted
    decide

end Mettle.Semantic

import Mathlib.Data.Set.Card
import Mettle.Semantic.Monomorphize

/-!
# Mettle — when monomorphization ends

Each instance may ask for further ones, with longer type arguments than its own, so
the list of instances grows while it is worked off. Nothing in the source bounds it.
`InstanceClosure` is what a program asks for, directly or through its instances; two
requests of one mangled name are one for the source.
-/

namespace Mettle.Semantic

open Mettle.Lib Mettle.Parser List Option

-- ---
-- Instances and requests
-- ---

def requestName (r : Request) : Text := mangleName r.1 r.2

def instanceOf (r : Request) : Instantiation := ⟨r.1, r.2, requestName r⟩

/-- Every instance has the name of its template and arguments, and no name twice. -/
structure InstanceList (instances : List Instantiation) : Prop where
  made : ∀ inst ∈ instances, ∃ r, inst = instanceOf r
  names : (instances.map Instantiation.mangledName).Nodup

def Covers (instances : List Instantiation) (r : Request) : Prop :=
  ∃ inst ∈ instances, inst.mangledName = requestName r

variable {instances : List Instantiation} {r : Request}

theorem Covers.mono {grown : List Instantiation}
    (h : Covers instances r) (hMore : instances <+: grown) : Covers grown r := by
  obtain ⟨inst, hInst, hName⟩ := h
  exact ⟨inst, hMore.subset hInst, hName⟩

section Adding

variable {requests : List Request}

/-- Adding requests keeps what is there, covers all of them and makes nothing else. -/
structure Added (instances : List Instantiation) (requests : List Request)
    (grown : List Instantiation) : Prop where
  keeps : instances <+: grown
  covers : ∀ r ∈ requests, Covers grown r
  only : ∀ inst ∈ grown, inst ∈ instances ∨ ∃ r ∈ requests, inst = instanceOf r
  list : InstanceList grown

theorem addInstantiation_added (h : InstanceList instances) (r : Request) :
    Added instances [r] (addInstantiation instances r) := by
  unfold addInstantiation
  dsimp only
  split
  · rename_i hFound
    obtain ⟨inst, hInst, hName⟩ := any_eq_true.mp hFound
    exact ⟨prefix_rfl, fun r' hr' => by
      rw [mem_singleton] at hr'
      exact hr' ▸ ⟨inst, hInst, eq_of_beq hName⟩, fun inst hInst => .inl hInst, h⟩
  · rename_i hFound
    refine ⟨prefix_append _ _, fun r' hr' => ?_, fun inst hInst => ?_, ?_, ?_⟩
    · rw [mem_singleton] at hr'
      subst hr'
      exact ⟨_, mem_append_right _ (mem_singleton.mpr rfl), rfl⟩
    · refine (mem_append.mp hInst).imp_right fun hNew => ?_
      exact ⟨r, mem_singleton.mpr rfl, mem_singleton.mp hNew⟩
    · intro inst hInst
      rcases mem_append.mp hInst with hOld | hNew
      · exact h.made inst hOld
      · exact ⟨r, mem_singleton.mp hNew⟩
    · rw [map_append, nodup_append]
      refine ⟨h.names, nodup_singleton _, ?_⟩
      intro a ha b hb hSame
      obtain ⟨inst, hInst, rfl⟩ := mem_map.mp ha
      rw [map_singleton, mem_singleton] at hb
      exact hFound (any_eq_true.mpr ⟨inst, hInst, beq_iff_eq.mpr (hSame.trans hb)⟩)

theorem addInstantiations_added (h : InstanceList instances) (requests : List Request) :
    Added instances requests (addInstantiations instances requests) := by
  induction requests generalizing instances with
  | nil =>
    exact ⟨prefix_rfl, fun r hr => absurd hr not_mem_nil, fun inst hInst => .inl hInst, h⟩
  | cons r requests ih =>
    have hFirst := addInstantiation_added h r
    have hRest := ih hFirst.list
    refine ⟨hFirst.keeps.trans hRest.keeps, ?_, fun inst hInst => ?_, hRest.list⟩
    · exact forall_mem_cons.mpr
        ⟨(hFirst.covers r (mem_singleton.mpr rfl)).mono hRest.keeps, hRest.covers⟩
    · rcases hRest.only inst hInst with hOld | ⟨r', hr', hMade⟩
      · refine (hFirst.only inst hOld).imp_right ?_
        rintro ⟨r', hr', hMade⟩
        exact ⟨r', mem_singleton.mp hr' ▸ mem_cons_self, hMade⟩
      · exact .inr ⟨r', mem_cons_of_mem _ hr', hMade⟩

end Adding

-- ---
-- A round
-- ---

section Rounds

variable (ctx : MonoContext)

/-- The instance of `r` asks for `r'`. -/
def AsksFor (r r' : Request) : Prop :=
  ∃ nodes requests, instantiate ctx (instanceOf r) = .ok (nodes, requests) ∧ r' ∈ requests

/-- The instance of `r` is in error. -/
def InError (r : Request) : Prop := ∃ message, instantiate ctx (instanceOf r) = .error message

def Processed (instances : List Instantiation) (inst : Instantiation) : Prop :=
  ∃ nodes requests, instantiate ctx inst = .ok (nodes, requests) ∧
    ∀ r ∈ requests, Covers instances r

variable {ctx}

/-- **A round.** -/
theorem round_spec (batch : List Instantiation) (h : InstanceList instances) :
    (∃ inst ∈ batch, ∃ message, instantiate ctx inst = .error message ∧
      instantiationRound ctx batch instances = .error message) ∨
    ∃ nodes grown, instantiationRound ctx batch instances = .ok (nodes, grown) ∧
      instances <+: grown ∧ InstanceList grown ∧ (∀ inst ∈ batch, Processed ctx grown inst) ∧
      ∀ inst ∈ grown, inst ∈ instances ∨ ∃ maker ∈ batch, ∃ nodes requests,
        instantiate ctx maker = .ok (nodes, requests) ∧ ∃ r ∈ requests, inst = instanceOf r := by
  induction batch generalizing instances with
  | nil =>
    exact .inr ⟨[], instances, rfl, prefix_rfl, h,
      fun inst hInst => absurd hInst not_mem_nil, fun inst hInst => .inl hInst⟩
  | cons inst batch ih =>
    rw [instantiationRound]
    cases hHere : instantiate ctx inst with
    | error message => exact .inl ⟨inst, mem_cons_self, message, hHere, rfl⟩
    | ok made =>
      obtain ⟨nodes, requests⟩ := made
      have hAdded := addInstantiations_added h requests
      dsimp only
      rcases ih hAdded.list with ⟨bad, hBad, message, hError, hRound⟩ |
        ⟨others, grown, hRound, hKeeps, hList, hDone, hOnly⟩
      · rw [hRound]
        exact .inl ⟨bad, mem_cons_of_mem _ hBad, message, hError, rfl⟩
      · rw [hRound]
        refine .inr ⟨nodes ++ others, grown, rfl, hAdded.keeps.trans hKeeps, hList, ?_, ?_⟩
        · exact forall_mem_cons.mpr
            ⟨⟨nodes, requests, hHere, fun r hr => (hAdded.covers r hr).mono hKeeps⟩, hDone⟩
        · intro new hNew
          rcases hOnly new hNew with hOld | ⟨maker, hMaker, hMade⟩
          · refine (hAdded.only new hOld).imp_right ?_
            rintro ⟨r, hr, hIs⟩
            exact ⟨inst, mem_cons_self, nodes, requests, hHere, r, hr, hIs⟩
          · exact .inr ⟨maker, mem_cons_of_mem _ hMaker, hMade⟩

-- ---
-- The loop
-- ---

structure LoopState (ctx : MonoContext) (seeds : Set Request) (processed : Nat)
    (instances : List Instantiation) : Prop where
  list : InstanceList instances
  bound : processed ≤ instances.length
  asked : ∀ inst ∈ instances, ∃ r ∈ Reached seeds (AsksFor ctx), inst = instanceOf r
  seeded : ∀ r ∈ seeds, Covers instances r
  done : ∀ inst ∈ instances.take processed, Processed ctx instances inst

variable {seeds : Set Request} {processed : Nat}

/-- A round reports a request in error, or keeps the state. -/
theorem LoopState.turn (h : LoopState ctx seeds processed instances) :
    (∃ r ∈ Reached seeds (AsksFor ctx), InError ctx r ∧ ∃ message,
      instantiationRound ctx (instances.drop processed) instances = .error message) ∨
    ∃ nodes grown, instantiationRound ctx (instances.drop processed) instances =
        .ok (nodes, grown) ∧ instances <+: grown ∧
      LoopState ctx seeds instances.length grown := by
  have hBatch : ∀ inst ∈ instances.drop processed, inst ∈ instances :=
    fun inst hInst => mem_of_mem_drop hInst
  rcases round_spec (instances.drop processed) h.list with
    ⟨bad, hBad, message, hError, hRound⟩ | ⟨nodes, grown, hRound, hKeeps, hList, hDone, hOnly⟩
  · obtain ⟨r, hr, rfl⟩ := h.asked bad (hBatch bad hBad)
    exact .inl ⟨r, hr, ⟨message, hError⟩, message, hRound⟩
  · refine .inr ⟨nodes, grown, hRound, hKeeps, hList, hKeeps.length_le, ?_, ?_, ?_⟩
    · intro inst hInst
      rcases hOnly inst hInst with hOld | ⟨maker, hMaker, nodes, requests, hMade, r, hr, rfl⟩
      · exact h.asked inst hOld
      · obtain ⟨r', hr', rfl⟩ := h.asked maker (hBatch maker hMaker)
        exact ⟨r, reached_step hr' ⟨nodes, requests, hMade, hr⟩, rfl⟩
    · exact fun r hr => (h.seeded r hr).mono hKeeps
    · intro inst hInst
      rw [(prefix_iff_eq_take.mp hKeeps).symm] at hInst
      rw [← take_append_drop processed instances, mem_append] at hInst
      rcases hInst with hEarlier | hNow
      · obtain ⟨nodes, requests, hMade, hCovers⟩ := h.done inst hEarlier
        exact ⟨nodes, requests, hMade, fun r hr => (hCovers r hr).mono hKeeps⟩
      · exact hDone inst hNow

theorem LoopState.length_le (h : LoopState ctx seeds processed instances)
    (hFinite : (Reached seeds (AsksFor ctx)).Finite) :
    instances.length ≤ (Reached seeds (AsksFor ctx)).ncard := by
  classical
  have hSubset : ((instances.map Instantiation.mangledName).toFinset : Set Text) ⊆
      requestName '' Reached seeds (AsksFor ctx) := by
    intro name hName
    rw [List.coe_toFinset, Set.mem_ofPred_eq, List.mem_map] at hName
    obtain ⟨inst, hInst, rfl⟩ := hName
    obtain ⟨r, hr, rfl⟩ := h.asked inst hInst
    exact ⟨r, hr, rfl⟩
  calc instances.length = (instances.map Instantiation.mangledName).toFinset.card := by
        rw [toFinset_card_of_nodup h.list.names, length_map]
    _ = ((instances.map Instantiation.mangledName).toFinset : Set Text).ncard :=
        (Set.ncard_coe_finset _).symm
    _ ≤ (requestName '' Reached seeds (AsksFor ctx)).ncard :=
        Set.ncard_le_ncard hSubset (hFinite.image _)
    _ ≤ (Reached seeds (AsksFor ctx)).ncard := Set.ncard_image_le hFinite

theorem LoopState.ends_of_finite (hFinite : (Reached seeds (AsksFor ctx)).Finite) {rounds : Nat}
    (h : LoopState ctx seeds processed instances)
    (hRounds : (Reached seeds (AsksFor ctx)).ncard - processed < rounds) :
    ∃ result, instantiationLoop ctx rounds processed instances = some result := by
  induction rounds generalizing processed instances with
  | zero => omega
  | succ rounds ih =>
    rw [instantiationLoop]
    split
    · rename_i hMore
      have hLength := h.length_le hFinite
      rcases h.turn with ⟨-, -, -, message, hRound⟩ | ⟨nodes, grown, hRound, -, hNext⟩
      · rw [hRound]
        exact ⟨_, rfl⟩
      · obtain ⟨result, hLoop⟩ := ih hNext (by omega)
        rw [hRound]
        dsimp only
        rw [hLoop]
        exact ⟨_, rfl⟩
    · exact ⟨_, rfl⟩

theorem LoopState.end_state {rounds : Nat} (h : LoopState ctx seeds processed instances)
    {result : Except String (List Tree)}
    (hLoop : instantiationLoop ctx rounds processed instances = some result) :
    (∃ r ∈ Reached seeds (AsksFor ctx), InError ctx r) ∨
      ∃ grown, LoopState ctx seeds grown.length grown := by
  induction rounds generalizing processed instances result with
  | zero => cases hLoop
  | succ rounds ih =>
    rw [instantiationLoop] at hLoop
    split at hLoop
    · rcases h.turn with ⟨r, hr, hError, -⟩ | ⟨nodes, grown, hRound, -, hNext⟩
      · exact .inl ⟨r, hr, hError⟩
      · rw [hRound] at hLoop
        obtain ⟨rest, hRest, -⟩ := map_eq_some_iff.mp hLoop
        exact ih hNext hRest
    · rename_i hAll
      have hLength : processed = instances.length := by
        have hBound := h.bound
        omega
      exact .inr ⟨instances, hLength ▸ h⟩

def NamesDistinct (ctx : MonoContext) (seeds : Set Request) : Prop :=
  Set.InjOn requestName (Reached seeds (AsksFor ctx))

theorem LoopState.mem_of_covers (h : LoopState ctx seeds processed instances)
    (hNames : NamesDistinct ctx seeds) (hr : r ∈ Reached seeds (AsksFor ctx))
    (hCovers : Covers instances r) : instanceOf r ∈ instances := by
  obtain ⟨inst, hInst, hName⟩ := hCovers
  obtain ⟨r', hr', rfl⟩ := h.asked inst hInst
  exact hNames hr' hr hName ▸ hInst

theorem LoopState.complete (h : LoopState ctx seeds instances.length instances)
    (hNames : NamesDistinct ctx seeds) :
    ∀ r ∈ Reached seeds (AsksFor ctx), instanceOf r ∈ instances := by
  rintro r ⟨seed, hSeed, hPath⟩
  induction hPath with
  | refl => exact h.mem_of_covers hNames (subset_reached hSeed) (h.seeded seed hSeed)
  | tail hPath hAsks ih =>
    obtain ⟨nodes, requests, hMade, hr⟩ := hAsks
    have hDone := h.done _ (by rw [take_length]; exact ih)
    obtain ⟨nodes', requests', hMade', hCovers⟩ := hDone
    rw [hMade] at hMade'
    cases hMade'
    have hReached := reached_step ⟨seed, hSeed, hPath⟩ ⟨nodes, requests, hMade, hr⟩
    exact h.mem_of_covers hNames hReached (hCovers _ hr)

theorem LoopState.eventually (hNames : NamesDistinct ctx seeds)
    (hr : r ∈ Reached seeds (AsksFor ctx)) (h : LoopState ctx seeds processed instances)
    (hNone : ∀ rounds, instantiationLoop ctx rounds processed instances = none) :
    ∃ processed' instances', LoopState ctx seeds processed' instances' ∧
      (∀ rounds, instantiationLoop ctx rounds processed' instances' = none) ∧
      instanceOf r ∈ instances'.take processed' := by
  -- a turn in which all instances that are there become done
  have hTurn : ∀ {p : Nat} {is : List Instantiation}, LoopState ctx seeds p is →
      (∀ rounds, instantiationLoop ctx rounds p is = none) →
      ∃ grown, LoopState ctx seeds is.length grown ∧ is <+: grown ∧
        ∀ rounds, instantiationLoop ctx rounds is.length grown = none := by
    intro p is hState hForever
    have hNext := fun rounds => hForever (rounds + 1)
    simp only [instantiationLoop] at hNext
    split at hNext
    · rcases hState.turn with ⟨-, -, -, message, hRound⟩ | ⟨nodes, grown, hRound, hKeeps, hGrown⟩
      · rw [hRound] at hNext
        cases hNext 0
      · rw [hRound] at hNext
        exact ⟨grown, hGrown, hKeeps, fun rounds => map_eq_none_iff.mp (hNext rounds)⟩
    · cases hNext 0
  have hTake : ∀ {is grown : List Instantiation}, is <+: grown → ∀ inst ∈ is,
      inst ∈ grown.take is.length := by
    intro is grown hKeeps inst hInst
    rwa [← prefix_iff_eq_take.mp hKeeps]
  obtain ⟨seed, hSeed, hPath⟩ := hr
  induction hPath with
  | refl =>
    obtain ⟨grown, hGrown, hKeeps, hForever⟩ := hTurn h hNone
    exact ⟨_, grown, hGrown, hForever, hTake hKeeps _
      (h.mem_of_covers hNames (subset_reached hSeed) (h.seeded seed hSeed))⟩
  | tail hPath hAsks ih =>
    obtain ⟨p, is, hState, hForever, hIn⟩ := ih
    obtain ⟨nodes, requests, hMade, hr⟩ := hAsks
    obtain ⟨nodes', requests', hMade', hCovers⟩ := hState.done _ hIn
    rw [hMade] at hMade'
    cases hMade'
    obtain ⟨grown, hGrown, hKeeps, hForever'⟩ := hTurn hState hForever
    have hReached := reached_step ⟨seed, hSeed, hPath⟩ ⟨nodes, requests, hMade, hr⟩
    exact ⟨_, grown, hGrown, hForever', hTake hKeeps _
      (hState.mem_of_covers hNames hReached (hCovers _ hr))⟩

/-- **When the loop ends.** -/
theorem LoopState.ends_iff (h : LoopState ctx seeds processed instances)
    (hNames : NamesDistinct ctx seeds) :
    (∃ rounds result, instantiationLoop ctx rounds processed instances = some result) ↔
      (Reached seeds (AsksFor ctx)).Finite ∨ ∃ r ∈ Reached seeds (AsksFor ctx), InError ctx r := by
  constructor
  · rintro ⟨rounds, result, hLoop⟩
    rcases h.end_state hLoop with hError | ⟨grown, hEnd⟩
    · exact .inr hError
    · refine .inl ((finite_toSet (grown.map fun inst =>
        (inst.genericName, inst.typeArgs))).subset fun r hr => ?_)
      exact mem_map.mpr ⟨_, hEnd.complete hNames r hr, rfl⟩
  · rintro (hFinite | ⟨r, hr, message, hError⟩)
    · exact ⟨_, h.ends_of_finite hFinite (Nat.lt_succ_self _)⟩
    · by_contra hForever
      have hNone : ∀ rounds, instantiationLoop ctx rounds processed instances = none := by
        intro rounds
        by_contra hSome
        obtain ⟨result, hLoop⟩ := ne_none_iff_exists'.mp hSome
        exact hForever ⟨rounds, result, hLoop⟩
      obtain ⟨p, is, hState, -, hIn⟩ := h.eventually hNames hr hNone
      obtain ⟨nodes, requests, hMade, -⟩ := hState.done _ hIn
      rw [hError] at hMade
      cases hMade

end Rounds

-- ---
-- The pass
-- ---

section Program

variable (declarations : List Tree)

/-- The program is turned down before any template is instantiated. -/
def RejectedBefore : Prop :=
  (collectGenericDefs declarations).errors ≠ [] ∨
    monoEmitImplMethodFunctions (collectGenericDefs declarations) = none

def programRequests : Set Request := {r |
  instanceOf r ∈ (collectGenericDefs declarations).instances ∨
    ∃ functions requests, monoEmitImplMethodFunctions (collectGenericDefs declarations) =
      some (functions, requests) ∧ (r ∈ requests ∨
        r ∈ (declarations ++ functions).flatMap collectTypeInstantiations)}

def InstanceClosure : Set Request :=
  Reached (programRequests declarations) (AsksFor (collectGenericDefs declarations))

/-- `monomorphize_program` returns. -/
def Terminates : Prop := ∃ rounds result, monomorphizeProgram rounds declarations = some result

variable {declarations}

theorem collectDef_list {ctx : MonoContext} (h : InstanceList ctx.instances) (decl : Tree) :
    InstanceList (collectDef ctx decl).instances := by
  unfold collectDef
  split
  · unfold monoAddImpl
    split
    · exact h
    · split
      · exact h
      · exact (addInstantiations_added h _).list
  · split <;> exact h
  · split <;> exact h
  · exact h

theorem collectTrait_instances (ctx : MonoContext) (decl : Tree) :
    (collectTrait ctx decl).instances = ctx.instances := by
  unfold collectTrait
  split
  · unfold monoAddTrait
    split <;> rfl
  · rfl

theorem collectGenericDefs_list (declarations : List Tree) :
    InstanceList (collectGenericDefs declarations).instances := by
  have hTraits : ∀ (ds : List Tree) (ctx : MonoContext), InstanceList ctx.instances →
      InstanceList (ds.foldl collectTrait ctx).instances := by
    intro ds
    induction ds with
    | nil => exact fun ctx h => h
    | cons d ds ih => exact fun ctx h => ih _ (collectTrait_instances ctx d ▸ h)
  have hDefs : ∀ (ds : List Tree) (ctx : MonoContext), InstanceList ctx.instances →
      InstanceList (ds.foldl collectDef ctx).instances := by
    intro ds
    induction ds with
    | nil => exact fun ctx h => h
    | cons d ds ih => exact fun ctx h => ih _ (collectDef_list h d)
  exact hDefs _ _ (hTraits _ _ ⟨fun inst hInst => absurd hInst not_mem_nil, nodup_nil⟩)

section

variable {functions : List Tree} {requests : List Request}
  (hEmit : monoEmitImplMethodFunctions (collectGenericDefs declarations) = some (functions,
      requests))
include hEmit

theorem start_state : LoopState (collectGenericDefs declarations) (programRequests declarations) 0
      (addInstantiations ((collectGenericDefs declarations).ask requests).instances
        ((declarations ++ functions).flatMap collectTypeInstantiations)) := by
  have hImpls := collectGenericDefs_list declarations
  have hEmitted := addInstantiations_added hImpls requests
  have hAll := addInstantiations_added hEmitted.list
    ((declarations ++ functions).flatMap collectTypeInstantiations)
  refine ⟨hAll.list, Nat.zero_le _, fun inst hInst => ?_, ?_, ?_⟩
  · have hFrom : ∃ r, r ∈ programRequests declarations ∧ inst = instanceOf r := by
      rcases hAll.only inst hInst with hOld | ⟨r, hr, rfl⟩
      · rcases hEmitted.only inst hOld with hImpl | ⟨r, hr, rfl⟩
        · obtain ⟨r, rfl⟩ := hImpls.made inst hImpl
          exact ⟨r, .inl hImpl, rfl⟩
        · exact ⟨r, .inr ⟨functions, requests, hEmit, .inl hr⟩, rfl⟩
      · exact ⟨r, .inr ⟨functions, requests, hEmit, .inr hr⟩, rfl⟩
    obtain ⟨r, hr, hIs⟩ := hFrom
    exact ⟨r, subset_reached hr, hIs⟩
  · rintro r (hImpl | ⟨functions', requests', hEmit', hr⟩)
    · exact ⟨_, hAll.keeps.subset (hEmitted.keeps.subset hImpl), rfl⟩
    · rw [hEmit] at hEmit'
      cases hEmit'
      rcases hr with hr | hr
      · exact (hEmitted.covers r hr).mono hAll.keeps
      · exact hAll.covers r hr
  · exact fun inst hInst => absurd hInst not_mem_nil

theorem finite_of_no_defs (hDefs : (collectGenericDefs declarations).defs = []) :
    (InstanceClosure declarations).Finite := by
  have hSeeds : (programRequests declarations).Finite := by
    refine (finite_toSet (((collectGenericDefs declarations).instances.map fun inst =>
      (inst.genericName, inst.typeArgs)) ++ (requests ++
        (declarations ++ functions).flatMap collectTypeInstantiations))).subset ?_
    rintro r (hImpl | ⟨functions', requests', hEmit', hr⟩)
    · exact mem_append_left _ (mem_map.mpr ⟨_, hImpl, rfl⟩)
    · rw [hEmit] at hEmit'
      cases hEmit'
      exact mem_append_right _ (mem_append.mpr hr)
  refine hSeeds.subset (reached_subset ⟨subset_rfl, ?_⟩)
  rintro r - r' ⟨nodes, asked, hMade, hr'⟩
  rw [instantiate, hDefs] at hMade
  cases hMade
  exact absurd hr' not_mem_nil

end

theorem instantiationLoop_ask (ctx : MonoContext) (requests : List Request) (rounds : Nat) :
    ∀ processed instances, instantiationLoop (ctx.ask requests) rounds processed instances =
      instantiationLoop ctx rounds processed instances := by
  have hInstantiate : instantiate (ctx.ask requests) = instantiate ctx := rfl
  have hRound : ∀ batch instances, instantiationRound (ctx.ask requests) batch instances =
      instantiationRound ctx batch instances := by
    intro batch
    induction batch with
    | nil => exact fun instances => rfl
    | cons inst batch ih =>
      intro instances
      rw [instantiationRound, instantiationRound, hInstantiate]
      simp only [ih]
  induction rounds with
  | zero => exact fun processed instances => rfl
  | succ rounds ih =>
    intro processed instances
    rw [instantiationLoop, instantiationLoop, hRound]
    simp only [ih]

theorem terminates_iff_loop {functions : List Tree} {requests : List Request}
    (hErrors : (collectGenericDefs declarations).errors = [])
    (hEmit : monoEmitImplMethodFunctions (collectGenericDefs declarations) =
      some (functions, requests)) (hDefs : (collectGenericDefs declarations).defs ≠ []) :
    Terminates declarations ↔ ∃ rounds result,
      instantiationLoop (collectGenericDefs declarations) rounds 0
        (addInstantiations ((collectGenericDefs declarations).ask requests).instances
          ((declarations ++ functions).flatMap collectTypeInstantiations)) = some result := by
  have hDefsAsked : ((collectGenericDefs declarations).ask requests).defs ≠ [] := hDefs
  refine exists_congr fun rounds => ?_
  rw [monomorphizeProgram]
  simp only [hErrors, ne_eq, not_true_eq_false, if_false, hEmit, instantiateProgram,
    hDefsAsked, instantiationLoop_ask]
  rw [← isSome_iff_exists, ← isSome_iff_exists, isSome_map, isSome_map]

/-- **Monomorphization ends** if finitely many instances are asked for, or the program is
turned down before. If no two requests share a name, it ends only then, or at an
instance in error. -/
theorem monomorphize_terminates (declarations : List Tree) :
    (RejectedBefore declarations ∨ (InstanceClosure declarations).Finite →
      Terminates declarations) ∧
    (Set.InjOn requestName (InstanceClosure declarations) →
      (Terminates declarations ↔ RejectedBefore declarations ∨
        (InstanceClosure declarations).Finite ∨
        ∃ r ∈ InstanceClosure declarations, InError (collectGenericDefs declarations) r)) := by
  have hRejected : RejectedBefore declarations → Terminates declarations := by
    rintro (hErrors | hEmit)
    · exact ⟨0, _, if_pos hErrors⟩
    · by_cases hErrors : (collectGenericDefs declarations).errors = []
      · refine ⟨0, .error ["Failed to create trait impl method function"], ?_⟩
        rw [monomorphizeProgram]
        simp [hErrors, hEmit]
      · exact ⟨0, _, if_pos hErrors⟩
  by_cases hBefore : RejectedBefore declarations
  · exact ⟨fun _ => hRejected hBefore, fun _ =>
      ⟨fun _ => .inl hBefore, fun _ => hRejected hBefore⟩⟩
  obtain ⟨hErrors, hEmits⟩ := not_or.mp hBefore
  rw [not_not] at hErrors
  obtain ⟨⟨functions, requests⟩, hEmit⟩ := ne_none_iff_exists'.mp hEmits
  by_cases hDefs : (collectGenericDefs declarations).defs = []
  · have hEnds : Terminates declarations := by
      have hDefsAsked : ((collectGenericDefs declarations).ask requests).defs = [] := hDefs
      refine ⟨0, ?_⟩
      rw [monomorphizeProgram]
      simp only [hErrors, ne_eq, not_true_eq_false, if_false, hEmit, instantiateProgram,
        hDefsAsked, if_true, map_some]
      exact ⟨_, rfl⟩
    exact ⟨fun _ => hEnds, fun _ => ⟨fun _ => .inr (.inl (finite_of_no_defs hEmit hDefs)),
      fun _ => hEnds⟩⟩
  · have hStart := start_state hEmit
    rw [terminates_iff_loop hErrors hEmit hDefs]
    constructor
    · rintro (hNot | hFinite)
      · exact absurd hNot hBefore
      · exact ⟨_, hStart.ends_of_finite hFinite (Nat.lt_succ_self _)⟩
    · intro hNames
      rw [hStart.ends_iff hNames]
      exact ⟨.inr, fun h => h.resolve_left hBefore⟩

end Program

/-- `struct Box<T> { item: T; } var x: Box<int32>;` -/
def oneBox : List Tree :=
  [.node (.structDeclaration "Box".toList ["T".toList] false ["T".toList] [none]) [],
    .node (.varDeclaration "x".toList (some "Box<int32>".toList) false) []]

theorem monomorphize_terminates_oneBox :
    Terminates oneBox ∧ (RejectedBefore oneBox ∨ (InstanceClosure oneBox).Finite ∨
      ∃ r ∈ InstanceClosure oneBox, InError (collectGenericDefs oneBox) r) := by
  have hClosure : InstanceClosure oneBox ⊆ {("Box".toList, ["int32".toList])} := by
    refine reached_subset ⟨?_, ?_⟩
    · rintro r (hImpl | ⟨functions, requests, hEmit, hr⟩)
      · exact absurd hImpl not_mem_nil
      · cases hEmit
        rcases hr with hr | hr
        · exact absurd hr not_mem_nil
        · exact mem_singleton.mp hr
    · rintro r rfl r' ⟨nodes, requests, hMade, hr⟩
      cases hMade
      exact absurd hr not_mem_nil
  have hFinite := (Set.finite_singleton _).subset hClosure
  have hNames : Set.InjOn requestName (InstanceClosure oneBox) :=
    (Set.subsingleton_singleton.anti hClosure).injOn _
  have hEnds := (monomorphize_terminates oneBox).1 (.inr hFinite)
  exact ⟨hEnds, ((monomorphize_terminates oneBox).2 hNames).mp hEnds⟩

-- ---
-- A template that grows
-- ---

/-- `struct L<T> { next: L<L<T> >*; } var x: L<int32>;` -/
def growingList : List Tree :=
  [.node (.structDeclaration "L".toList ["L<L<T>>*".toList] false ["T".toList] [none]) [],
    .node (.varDeclaration "x".toList (some "L<int32>".toList) false) []]

/-- The type arguments of the instances of `L`, one inside the other. -/
def nestedArg : Nat → Text
  | 0 => "int32".toList
  | n + 1 => mangleName "L".toList [nestedArg n]

theorem length_mangleArg (t : Text) : t.length ≤ (mangleArg t).length := by
  induction t with
  | nil => exact Nat.le_refl _
  | cons c t ih =>
    have hChar : 0 < (mangleChar c).length := by
      unfold mangleChar
      split
      · exact Nat.succ_pos _
      · split <;> exact Nat.succ_pos _
    rw [mangleArg, flatMap_cons, length_append, length_cons]
    rw [mangleArg] at ih
    omega

theorem nestedArg_strictMono : StrictMono fun n => (nestedArg n).length := by
  refine strictMono_nat_of_lt_succ fun n => ?_
  have hArg := length_mangleArg (nestedArg n)
  simp only [nestedArg, mangleName, flatMap_cons, flatMap_nil, length_append,
    length_cons, append_nil]
  omega

theorem nestedArg_injective : Function.Injective nestedArg := by
  intro m n h
  exact nestedArg_strictMono.injective (congrArg length h)

theorem instantiate_growing (a : Text) :
    instantiate (collectGenericDefs growingList) (instanceOf ("L".toList, [a])) =
      .ok ([.node (.structDeclaration (mangleName "L".toList [a])
          [mangleName "L".toList [mangleName "L".toList [a]] ++ "*".toList] false [] []) []],
        [("L".toList, [a]), ("L".toList, [mangleName "L".toList [a]])]) := by
  -- no suffix stands behind `T` and `L<T>`
  have hMade : instantiate (collectGenericDefs growingList) (instanceOf ("L".toList, [a])) =
      .ok ([.node (.structDeclaration (mangleName "L".toList [a])
          [mangleName "L".toList [mangleName "L".toList [a ++ []] ++ []] ++ "*".toList]
            false [] []) []],
        [("L".toList, [a ++ []]), ("L".toList, [mangleName "L".toList [a ++ []] ++ []])]) := rfl
  simpa only [append_nil] using hMade

theorem growing_closure : InstanceClosure growingList ⊆
    {r | ∃ n, r = ("L".toList, [nestedArg n])} := by
  refine reached_subset ⟨?_, ?_⟩
  · rintro r (hImpl | ⟨functions, requests, hEmit, hr⟩)
    · exact absurd hImpl not_mem_nil
    · cases hEmit
      rcases hr with hr | hr
      · exact absurd hr not_mem_nil
      · exact ⟨0, mem_singleton.mp hr⟩
  · rintro r ⟨n, rfl⟩ r' ⟨nodes, requests, hMade, hr⟩
    rw [instantiate_growing] at hMade
    cases hMade
    rcases mem_cons.mp hr with rfl | hr
    · exact ⟨n, rfl⟩
    · exact ⟨n + 1, mem_singleton.mp hr⟩

theorem mem_growing_closure (n : Nat) : ("L".toList, [nestedArg n]) ∈ InstanceClosure growingList := by
  induction n with
  | zero => exact subset_reached (.inr ⟨_, _, rfl, .inr mem_cons_self⟩)
  | succ n ih =>
    exact reached_step ih ⟨_, _, instantiate_growing _, mem_cons_of_mem _ (mem_singleton.mpr rfl)⟩

theorem growing_not_terminates : ¬Terminates growingList := by
  intro hEnds
  rw [@terminates_iff_loop growingList [] [] rfl rfl (by decide)] at hEnds
  obtain ⟨rounds, result, hLoop⟩ := hEnds
  have hStart := @start_state growingList [] [] rfl
  rcases hStart.end_state hLoop with ⟨r, hr, message, hError⟩ | ⟨grown, hEnd⟩
  · obtain ⟨n, rfl⟩ := growing_closure hr
    cases hError
  · have hNames : NamesDistinct (collectGenericDefs growingList) (programRequests growingList) := by
      intro r hr r' hr' hSame
      obtain ⟨m, rfl⟩ := growing_closure hr
      obtain ⟨n, rfl⟩ := growing_closure hr'
      have hNested : nestedArg (m + 1) = nestedArg (n + 1) := hSame
      have hIndex := nestedArg_injective hNested
      rw [Nat.succ_injective hIndex]
    -- the finished list would hold infinitely many instances
    have hAll := fun n => hEnd.complete hNames _ (mem_growing_closure n)
    refine Set.infinite_of_injective_forall_mem (f := fun n => instanceOf ("L".toList, [nestedArg n]))
      (fun m n hSame => ?_) hAll (finite_toSet grown)
    have hArgs : [nestedArg m] = [nestedArg n] := congrArg Instantiation.typeArgs hSame
    exact nestedArg_injective (cons.inj hArgs).1

end Mettle.Semantic

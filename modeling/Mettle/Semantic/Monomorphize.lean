import Mettle.Semantic.GenericTypes

/-!
# Mettle — monomorphization

`monomorphize_program` collects the templates, traits and impls of a program, adds an
instance of a template for every list of type arguments it is used with, rewrites the
uses to the names of the instances, turns method calls into calls of impl functions and
takes the templates out.

An instance is asked for while types are substituted and collected. The functions here
give the list of what is asked for, and `addInstantiations` puts it into the context one
by one, as `mono_add_instantiation` does. The loop over the instances runs for a number
of rounds and is `none` if they are used up.

Locations are left out, and so are failures to allocate. The source goes on reading the
arguments of an instance after the list of instances has moved in memory; here they are
what they were.
-/

namespace Mettle.Semantic

open Mettle.Parser

-- ---
-- The context
-- ---

/-- A trait. -/
structure TraitDef where
  name : Text
  methods : List Tree

/-- An impl of a trait. -/
structure TraitImpl where
  traitName : Text
  forTypeName : Text
  methods : List Tree

/-- A generic with its arguments. -/
structure Instantiation where
  genericName : Text
  typeArgs : List Text
  mangledName : Text
  deriving DecidableEq

/-- A generic with its parameters and bounds. -/
structure GenericDef where
  name : Text
  node : Tree
  typeParams : List Text
  typeParamTraits : List (Option Text)

/-- `MonoContext`; `had_error` is set with every error. -/
structure MonoContext where
  errors : List String := []
  traits : List TraitDef := []
  impls : List TraitImpl := []
  defs : List GenericDef := []
  instances : List Instantiation := []

def quoted (t : Text) : String := "'" ++ String.ofList t ++ "'"

/-- `mono_report_error`. -/
def MonoContext.report (ctx : MonoContext) (message : String) : MonoContext :=
  { ctx with errors := ctx.errors ++ [message] }

def MonoContext.reportAll (ctx : MonoContext) (messages : List String) : MonoContext :=
  { ctx with errors := ctx.errors ++ messages }

/-- `mono_add_instantiation`. -/
def addInstantiation (instances : List Instantiation) (request : Request) : List Instantiation :=
  let mangledName := mangleName request.1 request.2
  if instances.any fun inst => inst.mangledName == mangledName then instances
  else instances ++ [⟨request.1, request.2, mangledName⟩]

def addInstantiations (instances : List Instantiation) (requests : List Request) :
    List Instantiation :=
  requests.foldl addInstantiation instances

def MonoContext.ask (ctx : MonoContext) (requests : List Request) : MonoContext :=
  { ctx with instances := addInstantiations ctx.instances requests }

-- ---
-- Traits and bounds
-- ---

/-- The trait is declared. -/
def monoHasTrait (ctx : MonoContext) (traitName : Text) : Bool :=
  ctx.traits.any fun trait => trait.name == traitName

/-- `mono_add_trait`, with the methods that `collect_generic_defs` puts in. -/
def monoAddTrait (ctx : MonoContext) (traitName : Text) (methods : List Tree) : MonoContext :=
  if monoHasTrait ctx traitName then
    ctx.report ("Duplicate trait declaration " ++ quoted traitName)
  else { ctx with traits := ctx.traits ++ [⟨traitName, methods⟩] }

/-- An impl names both. -/
def monoTypeImplementsTrait (ctx : MonoContext) (traitName typeName : Text) : Bool :=
  ctx.impls.any fun impl => impl.traitName == traitName && impl.forTypeName == typeName

def isBlank (c : Char) : Bool := c == ' ' || c == '\t'

/-- The traits between the `+`. -/
def monoSplitBounds (bounds : Text) : List Text :=
  ((bounds.splitOnP (· == '+')).map fun piece =>
    (piece.dropWhile isBlank).rdropWhile isBlank).filter (· != [])

/-- `mono_validate_bound_traits`: the error, if there is one. -/
def monoValidateBoundTraits (ctx : MonoContext) (bounds : Option Text) (genericName : Text) :
    Option String :=
  match bounds with
  | none => none
  | some bounds =>
    if monoSplitBounds bounds = [] then some "Failed to allocate storage for generic bounds"
    else ((monoSplitBounds bounds).find? fun trait => !monoHasTrait ctx trait).map fun trait =>
      "Unknown trait " ++ quoted trait ++ " in generic bound on " ++ quoted genericName

def boundError (ctx : MonoContext) (defName typeArg trait : Text) : Option String :=
  if !monoHasTrait ctx trait then
    some ("Generic " ++ quoted defName ++ " requires unknown trait " ++ quoted trait)
  else if !monoTypeImplementsTrait ctx trait typeArg then
    some ("Type " ++ quoted typeArg ++ " does not implement trait " ++ quoted trait ++
      " required by " ++ quoted defName)
  else none

/-- `mono_type_satisfies_bounds`: the error, if the type argument is not accepted. -/
def monoTypeSatisfiesBounds (ctx : MonoContext) (defName typeArg : Text) (bounds : Option Text) :
    Option String :=
  match bounds with
  | none => none
  | some bounds =>
    if monoSplitBounds bounds = [] then some "Failed to allocate storage for generic bounds"
    else (monoSplitBounds bounds).findSome? (boundError ctx defName typeArg)

-- ---
-- The walks over trees
-- ---

def walkedChildren {α : Type} : NodeData → List α → List α
  | .varDeclaration _ _ _, cs => cs
  | .functionCall _ _ _, cs => cs
  | .program, cs => cs
  | .returnStatement, cs => cs
  -- the value before the target
  | .assignment _ _, cs => cs.reverse
  | .ifStatement, cs => cs
  | .whileStatement _, cs => cs
  | .forStatement _, cs => cs
  -- the expression before the clauses
  | .switchStatement, cs => cs.getLast?.toList ++ cs.dropLast
  | .caseClause _, cs => cs
  | .binaryExpression _, cs => cs
  | .unaryExpression _, cs => cs
  | .memberAccess _, cs => cs
  | .indexExpression, cs => cs
  | .deferStatement, cs => cs
  | .errdeferStatement, cs => cs
  | _, _ => []

def isWalked (data : NodeData) : Bool := walkedChildren data [()] != []

section

variable (paramNames argNames : List Text)

def substituteData : NodeData → NodeData × List Request
  | .varDeclaration name (some typeName) isExported =>
    let new := substituteType paramNames argNames typeName
    (.varDeclaration name (some new.1) isExported, new.2)
  | .newExpression typeName =>
    let new := substituteType paramNames argNames typeName
    (.newExpression new.1, new.2)
  | .functionCall functionName typeArgs hasObject =>
    let new := typeArgs.map (substituteType paramNames argNames)
    (.functionCall functionName (new.map Prod.fst) hasObject, new.flatMap Prod.snd)
  | data => (data, [])

mutual

/-- Puts arguments for parameters in a tree. -/
def substituteTypesInAst : Tree → Tree × List Request
  | .node data children =>
    let own := substituteData paramNames argNames data
    if isWalked data then
      let parts := substituteTypesInAll children
      (.node own.1 (parts.map Prod.fst),
        own.2 ++ (walkedChildren data (parts.map Prod.snd)).flatten)
    else (.node own.1 children, own.2)

def substituteTypesInAll : List Tree → List (Tree × List Request)
  | [] => []
  | t :: ts => substituteTypesInAst t :: substituteTypesInAll ts

end

def substituteFunction (header : FunctionHeader) (body : List Tree) : Tree × List Request :=
  let params := header.parameterTypes.map (substituteType paramNames argNames)
  let result := header.returnType.map (substituteType paramNames argNames)
  let parts := substituteTypesInAll paramNames argNames body
  (.node (.functionDeclaration { header with
      parameterTypes := params.map Prod.fst
      returnType := result.map Prod.fst }) (parts.map Prod.fst),
    params.flatMap Prod.snd ++ (result.toList.flatMap Prod.snd) ++ parts.flatMap Prod.snd)

end

def collectOwn : NodeData → List Request
  | .varDeclaration _ (some typeName) _ => recordGenericTypeUse typeName
  | .newExpression typeName => recordGenericTypeUse typeName
  | .functionCall functionName typeArgs _ =>
    if typeArgs = [] then [] else [(functionName, typeArgs)]
  | _ => []

mutual

/-- The requests of a tree. -/
def collectTypeInstantiations : Tree → List Request
  | .node (.functionDeclaration header) children =>
    if header.typeParams = [] then
      (collectTypeInstantiationsAll children).flatten ++
        header.parameterTypes.flatMap recordGenericTypeUse ++
        header.returnType.toList.flatMap recordGenericTypeUse
    else []
  | .node data children =>
    collectOwn data ++ (walkedChildren data (collectTypeInstantiationsAll children)).flatten

def collectTypeInstantiationsAll : List Tree → List (List Request)
  | [] => []
  | t :: ts => collectTypeInstantiations t :: collectTypeInstantiationsAll ts

end

def rewriteOwn : NodeData → NodeData
  | .varDeclaration name (some typeName) isExported =>
    .varDeclaration name (some (rewriteGenericTypeName typeName)) isExported
  | .newExpression typeName =>
    -- here no stars are kept apart
    match parseGenericTypeName typeName with
    | some (base, args) => .newExpression (mangleName base args)
    | none => .newExpression typeName
  | .functionCall functionName typeArgs hasObject =>
    if typeArgs = [] then .functionCall functionName typeArgs hasObject
    else .functionCall (mangleName functionName typeArgs) [] hasObject
  | .functionDeclaration header => .functionDeclaration { header with
      parameterTypes := header.parameterTypes.map rewriteGenericTypeName
      returnType := header.returnType.map rewriteGenericTypeName }
  | .structDeclaration name fieldTypes isExported [] typeParamTraits =>
    .structDeclaration name (fieldTypes.map rewriteGenericTypeName) isExported [] typeParamTraits
  | data => data

mutual

/-- Puts instances for generics in a tree. -/
def rewriteGenericReferences : Tree → Tree
  | .node (.functionDeclaration header) children =>
    if header.typeParams = [] then
      .node (rewriteOwn (.functionDeclaration header)) (rewriteGenericReferencesAll children)
    else .node (.functionDeclaration header) children
  | .node data children =>
    .node (rewriteOwn data)
      (if isWalked data then rewriteGenericReferencesAll children else children)

def rewriteGenericReferencesAll : List Tree → List Tree
  | [] => []
  | t :: ts => rewriteGenericReferences t :: rewriteGenericReferencesAll ts

end

-- ---
-- Templates and impls
-- ---

/-- The method of the name. -/
def monoFindFunctionMethod (methods : List Tree) (name : Text) : Option FunctionHeader :=
  methods.findSome? fun method =>
    match method with
    | .node (.functionDeclaration header) _ => if header.name = name then some header else none
    | _ => none

/-- Puts the type for `Self`. -/
def monoSubstituteSelfType (forTypeName typeName : Text) : Text × List Request :=
  substituteType [['S', 'e', 'l', 'f']] [forTypeName] typeName

/-- Equal once `Self` is the type. -/
def monoTypeNamesEqualWithSelf (forTypeName traitType implType : Text) : Bool × List Request :=
  let expected := monoSubstituteSelfType forTypeName traitType
  let actual := monoSubstituteSelfType forTypeName implType
  (expected.1 == actual.1, expected.2 ++ actual.2)

def compareParameters (forTypeName : Text) : Nat → List (Text × Text) → Option Nat × List Request
  | _, [] => (none, [])
  | j, (traitType, implType) :: rest =>
    let here := monoTypeNamesEqualWithSelf forTypeName traitType implType
    if here.1 then
      let others := compareParameters forTypeName (j + 1) rest
      (others.1, here.2 ++ others.2)
    else (some (j + 1), here.2)

def voidText : Text := ['v', 'o', 'i', 'd']

def validateImplMethod (impl : TraitImpl) (traitFn : FunctionHeader) :
    Option String × List Request :=
  match monoFindFunctionMethod impl.methods traitFn.name with
  | none => (some ("Impl '" ++ String.ofList impl.traitName ++ " for " ++
      String.ofList impl.forTypeName ++ "' is missing trait method " ++ quoted traitFn.name), [])
  | some implFn =>
    if implFn.parameterTypes.length ≠ traitFn.parameterTypes.length then
      (some ("Impl method " ++ quoted traitFn.name ++
        " has a signature that does not match trait " ++ quoted impl.traitName), [])
    else
      let params := compareParameters impl.forTypeName 0
        (traitFn.parameterTypes.zip implFn.parameterTypes)
      match params.1 with
      | some j => (some ("Impl method " ++ quoted traitFn.name ++ " parameter " ++ toString j ++
          " does not match trait " ++ quoted impl.traitName), params.2)
      | none =>
        if traitFn.returnType.isSome || implFn.returnType.isSome then
          let result := monoTypeNamesEqualWithSelf impl.forTypeName
            (traitFn.returnType.getD voidText) (implFn.returnType.getD voidText)
          (if result.1 then none else some ("Impl method " ++ quoted traitFn.name ++
            " return type does not match trait " ++ quoted impl.traitName), params.2 ++ result.2)
        else (none, params.2)

/-- `mono_validate_impl_methods`: it stops at the first error. -/
def monoValidateImplMethods (impl : TraitImpl) : List Tree → Option String × List Request
  | [] => (none, [])
  | .node (.functionDeclaration traitFn) _ :: methods =>
    let here := validateImplMethod impl traitFn
    match here.1 with
    | some message => (some message, here.2)
    | none =>
      let others := monoValidateImplMethods impl methods
      (others.1, here.2 ++ others.2)
  | _ :: methods => monoValidateImplMethods impl methods

/-- `mono_add_impl`, and the check of its methods against the trait. -/
def monoAddImpl (ctx : MonoContext) (traitName forTypeName : Text) (methods : List Tree) :
    MonoContext :=
  match ctx.traits.find? fun trait => trait.name == traitName with
  | none => ctx.report ("Unknown trait " ++ quoted traitName ++ " in impl declaration")
  | some trait =>
    if monoTypeImplementsTrait ctx traitName forTypeName then
      ctx.report ("Duplicate impl '" ++ String.ofList traitName ++ " for " ++
        String.ofList forTypeName ++ "'")
    else
      let impl : TraitImpl := ⟨traitName, forTypeName, methods⟩
      let checked := monoValidateImplMethods impl trait.methods
      (({ ctx with impls := ctx.impls ++ [impl] }).ask checked.2).reportAll checked.1.toList

def addGenericDef (ctx : MonoContext) (name : Text) (node : Tree) (typeParams : List Text)
    (typeParamTraits : List (Option Text)) : MonoContext :=
  let d : GenericDef := ⟨name, node, typeParams, typeParamTraits⟩
  ({ ctx with defs := ctx.defs ++ [d] } : MonoContext).reportAll
    (typeParamTraits.filterMap fun bounds => monoValidateBoundTraits ctx bounds name)

/-- The first loop of `collect_generic_defs`. -/
def collectTrait (ctx : MonoContext) : Tree → MonoContext
  | .node (.traitDeclaration name _) methods => monoAddTrait ctx name methods
  | _ => ctx

/-- The second loop of `collect_generic_defs`. -/
def collectDef (ctx : MonoContext) (decl : Tree) : MonoContext :=
  match decl with
  | .node (.implDeclaration traitName forTypeName) methods =>
    monoAddImpl ctx traitName forTypeName methods
  | .node (.structDeclaration name _ _ typeParams typeParamTraits) _ =>
    if typeParams = [] then ctx else addGenericDef ctx name decl typeParams typeParamTraits
  | .node (.functionDeclaration header) _ =>
    if header.typeParams = [] then ctx
    else addGenericDef ctx header.name decl header.typeParams header.typeParamTraits
  | _ => ctx

/-- The traits first, then the rest. -/
def collectGenericDefs (declarations : List Tree) : MonoContext :=
  declarations.foldl collectDef (declarations.foldl collectTrait {})

/-- The method as a function. -/
def monoCreateImplMethodFunction (impl : TraitImpl) : Tree → Option (Tree × List Request)
  | .node (.functionDeclaration header) body =>
    some (substituteFunction [['S', 'e', 'l', 'f']] [impl.forTypeName]
      { header with
        name := mangleImplMethodName impl.traitName impl.forTypeName header.name
        isExported := false } body)
  | _ => none

/-- `mono_emit_impl_method_functions`: the functions that are added, and what they ask for;
`none` is the error. -/
def monoEmitImplMethodFunctions (ctx : MonoContext) : Option (List Tree × List Request) :=
  (ctx.impls.flatMap fun impl => impl.methods.map (monoCreateImplMethodFunction impl)).foldr
    (fun fn others => fn.bind fun fn => others.map fun others =>
      (fn.1 :: others.1, fn.2 ++ others.2)) (some ([], []))

-- ---
-- Instances
-- ---

/-- The generic of the name. -/
def findGenericDef (defs : List GenericDef) (name : Text) : Option GenericDef :=
  defs.find? fun d => d.name == name

/-- `validate_instantiation`: the error, if there is one. -/
def validateInstantiation (ctx : MonoContext) (d : GenericDef) (inst : Instantiation) :
    Option String :=
  if d.typeParams.length ≠ inst.typeArgs.length then
    some ("Generic " ++ quoted d.name ++ " expects " ++ toString d.typeParams.length ++
      " type arguments but got " ++ toString inst.typeArgs.length)
  else (d.typeParamTraits.zip inst.typeArgs).findSome? fun (bounds, typeArg) =>
    monoTypeSatisfiesBounds ctx d.name typeArg bounds

/-- `create_monomorphized_struct` and `create_monomorphized_function`. -/
def createMonomorphized (d : GenericDef) (inst : Instantiation) : Option (Tree × List Request) :=
  match d.node with
  | .node (.structDeclaration _ fieldTypes isExported _ _) methods =>
    let fields := fieldTypes.map (substituteType d.typeParams inst.typeArgs)
    some (.node (.structDeclaration inst.mangledName (fields.map Prod.fst) isExported [] [])
      methods, fields.flatMap Prod.snd)
  | .node (.functionDeclaration header) body =>
    some (substituteFunction d.typeParams inst.typeArgs
      { header with name := inst.mangledName, typeParams := [], typeParamTraits := [] } body)
  | _ => none

def instantiate (ctx : MonoContext) (inst : Instantiation) :
    Except String (List Tree × List Request) :=
  match findGenericDef ctx.defs inst.genericName with
  | none => .ok ([], [])
  | some d =>
    match validateInstantiation ctx d inst with
    | some message => .error message
    | none =>
      match createMonomorphized d inst with
      | none => .ok ([], [])
      | some (node, requests) => .ok ([node], requests ++ collectTypeInstantiations node)

def instantiationRound (ctx : MonoContext) : List Instantiation → List Instantiation →
    Except String (List Tree × List Instantiation)
  | [], instances => .ok ([], instances)
  | inst :: rest, instances =>
    match instantiate ctx inst with
    | .error message => .error message
    | .ok (nodes, requests) =>
      match instantiationRound ctx rest (addInstantiations instances requests) with
      | .error message => .error message
      | .ok (others, instances) => .ok (nodes ++ others, instances)

/-- `while (processed < ctx.instance_count)`: the nodes that are added, or the error. -/
def instantiationLoop (ctx : MonoContext) :
    Nat → Nat → List Instantiation → Option (Except String (List Tree))
  | 0, _, _ => none
  | rounds + 1, processed, instances =>
    if processed < instances.length then
      match instantiationRound ctx (instances.drop processed) instances with
      | .error message => some (.error message)
      | .ok (nodes, grown) =>
        (instantiationLoop ctx rounds instances.length grown).map fun result =>
          result.map (nodes ++ ·)
    else some (.ok [])

-- ---
-- Method calls
-- ---

/-- The variables and their types. -/
abbrev MonoVarEnv := List (Text × Text)

/-- `mono_env_add`: there is one entry for a name. -/
def monoEnvAdd (env : MonoVarEnv) (name : Text) : Option Text → MonoVarEnv
  | none => env
  | some typeName =>
    if env.any fun item => item.1 == name then
      env.map fun item => if item.1 = name then (name, typeName) else item
    else env ++ [(name, typeName)]

/-- `mono_env_lookup`, from the last entry on. -/
def monoEnvLookup (env : MonoVarEnv) (name : Text) : Option Text :=
  env.reverse.lookup name

inductive MethodTarget where
  | none
  | ambiguous
  | function (name : Text)
  deriving DecidableEq

/-- `mono_find_impl_for_method`, and the name of the function. -/
def monoFindImplForMethod (impls : List TraitImpl) (typeName methodName : Text) : MethodTarget :=
  match impls.filter fun impl => impl.forTypeName == typeName &&
      (monoFindFunctionMethod impl.methods methodName).isSome with
  | [] => .none
  | [impl] => .function (mangleImplMethodName impl.traitName impl.forTypeName methodName)
  | _ => .ambiguous

def receiverName : List Tree → Option Text
  | [] => none
  | [.node (.identifier name) _] => some name
  | [_] => none
  | _ :: t :: ts => receiverName (t :: ts)

def ambiguousCall (receiver method typeName : Text) : String :=
  "Trait method call '" ++ String.ofList receiver ++ "." ++ String.ofList method ++
    "' is ambiguous for type " ++ quoted typeName

/-- `mono_rewrite_trait_method_call`, with the environment as a lookup: the children are
the arguments and the object. -/
def monoRewriteTraitMethodCall (impls : List TraitImpl) (lookup : Text → Option Text)
    (data : NodeData) (children : List Tree) : Except String Tree :=
  match data with
  | .functionCall functionName typeArgs true =>
    match receiverName children with
    | none => .ok (.node data children)
    | some receiver =>
      match lookup receiver with
      | none => .ok (.node data children)
      | some typeName =>
        match monoFindImplForMethod impls typeName functionName with
        | .none => .ok (.node data children)
        | .ambiguous => .error (ambiguousCall receiver functionName typeName)
        | .function mangled => .ok (.node (.functionCall mangled typeArgs false)
            (children.getLast?.toList ++ children.dropLast))
  | _ => .ok (.node data children)

section

variable (impls : List TraitImpl)

mutual

/-- Resolves the calls in a tree. -/
def monoRewriteTraitMethodCallsInNode : MonoVarEnv → Tree → Except String (Tree × MonoVarEnv)
  | env, .node data children =>
    match monoRewriteTraitMethodCallsInAll env children with
    | .error message => .error message
    | .ok (children, env) =>
      match data with
      | .functionCall _ _ _ =>
        (monoRewriteTraitMethodCall impls (monoEnvLookup env) data children).map (·, env)
      | .varDeclaration name typeName _ =>
        .ok (.node data children, monoEnvAdd env name typeName)
      | _ => .ok (.node data children, env)

def monoRewriteTraitMethodCallsInAll :
    MonoVarEnv → List Tree → Except String (List Tree × MonoVarEnv)
  | env, [] => .ok ([], env)
  | env, t :: ts =>
    match monoRewriteTraitMethodCallsInNode env t with
    | .error message => .error message
    | .ok (t, env) =>
      match monoRewriteTraitMethodCallsInAll env ts with
      | .error message => .error message
      | .ok (ts, env) => .ok (t :: ts, env)

end

/-- The parameters are known first. -/
def monoRewriteTraitMethodCallsInFunction (header : FunctionHeader) (body : List Tree) :
    Except String Tree :=
  let env := (header.parameterNames.zip header.parameterTypes).foldl
    (fun env parameter => monoEnvAdd env parameter.1 (some parameter.2)) []
  (monoRewriteTraitMethodCallsInAll impls env body).map fun result =>
    .node (.functionDeclaration header) result.1

/-- Resolves the calls of a program. -/
def monoRewriteTraitMethodCalls : List Tree → Except String (List Tree)
  | [] => .ok []
  | decl :: decls =>
    let here : Except String Tree :=
      match decl with
      | .node (.functionDeclaration header) body =>
        if header.typeParams = [] then monoRewriteTraitMethodCallsInFunction impls header body
        else .ok decl
      | _ => .ok decl
    match here with
    | .error message => .error message
    | .ok decl => (monoRewriteTraitMethodCalls decls).map (decl :: ·)

end

-- ---
-- The pass
-- ---

def isTemplate : Tree → Bool
  | .node (.structDeclaration _ _ _ typeParams _) _ => typeParams != []
  | .node (.functionDeclaration header) _ => header.typeParams != []
  | .node (.traitDeclaration _ _) _ => true
  | .node (.implDeclaration _ _) _ => true
  | _ => false

def instantiateProgram (ctx : MonoContext) (rounds : Nat) (declarations : List Tree) :
    Option (Except String (List Tree)) :=
  if ctx.defs = [] then some (.ok declarations)
  else
    let instances := addInstantiations ctx.instances
      (declarations.flatMap collectTypeInstantiations)
    (instantiationLoop ctx rounds 0 instances).map fun result =>
      result.map fun nodes => (declarations ++ nodes).map rewriteGenericReferences

/-- `monomorphize_program` on the declarations of a program: the new declarations or the
errors. -/
def monomorphizeProgram (rounds : Nat) (declarations : List Tree) :
    Option (Except (List String) (List Tree)) :=
  let ctx := collectGenericDefs declarations
  if ctx.errors ≠ [] then some (.error ctx.errors)
  else
    match monoEmitImplMethodFunctions ctx with
    | none => some (.error ["Failed to create trait impl method function"])
    | some (functions, requests) =>
      (instantiateProgram (ctx.ask requests) rounds (declarations ++ functions)).map fun result =>
        match result with
        | .error message => .error [message]
        | .ok declarations =>
          match monoRewriteTraitMethodCalls ctx.impls declarations with
          | .error message => .error [message]
          | .ok declarations => .ok (declarations.filter fun decl => !isTemplate decl)

end Mettle.Semantic

/-
  Subject:   `ModuleRegistry` (`module_registry.cpp`): resolving a module and its imports.

  A module is parsed, its imports are resolved one after the other, depth first, and the declarations of
  an imported module are copied into the importer ("spliced"): all that it shares, or the names in the
  list, and what these refer to. The registry remembers for every name the module that declared it last,
  and for every module the names its own code may use and the names it exports.

  Source texts are given as what the line preprocessor and the parser make of them. Maps with a default
  are functions, unordered sets are lists of which only the members matter, and a thrown exception
  leaves the state as it is at the throw.

  * `closure` -- what an import carries along;
  * `grantedNames` -- the names it brings into the importer's scope and exports;
  * `spliceStatement` -- the copying, with its renamings and its duplicate check;
  * `resolveModule`, `resolveRoot` -- the recursion.
-/
import Vyb.Lib.Overwrite
import Vyb.Lib.Search
import Vyb.Lib.Split
import Vyb.Modules.Nodes

namespace Vyb.Modules

open Vyb.Lib (overwrite occurs splitSep)

/-! ## 1. Statements -/

/-- A module's canonical path. -/
abbrev Key := List Char

structure Loc where
  file : Key
  line : Nat
  deriving DecidableEq

inductive DeclKind where
  | function | variable | typeAlias | struct | enum | aspect | classDecl
  deriving DecidableEq

/-- A declaration of a name. `node` is the declaration without that name. -/
structure Decl where
  kind : DeclKind
  name : Name
  loc : Loc
  node : Node

/-- A type by its text (`toString()`) and, for a `TypeName`, its name. -/
structure TypeRef where
  text : Name
  base : Option Name

structure Method where
  name : Name
  returnBase : Option Name

/-- `bind Trait -> Self { … }` -/
structure Bind where
  selfType : Option TypeRef
  traitType : Option TypeRef
  methods : List Method
  loc : Loc
  node : Node

inductive ImportKind where
  | trustedImport | smuggle
  deriving DecidableEq

structure Specifier where
  importedName : Name
  localName : Option Name

structure ImportDecl where
  kind : ImportKind
  source : Name
  locator : Option Name
  specifiers : List Specifier
  defaultImport : Option Name
  namespaceImport : Option Name
  line : Nat

/-- `ImportDeclaration::toString()` -/
def ImportDecl.spelling (d : ImportDecl) : Name :=
  (match d.kind with
    | .smuggle => "smuggle ".toList
    | .trustedImport => "import ".toList) ++ d.source ++
  (match d.specifiers.head?.bind Specifier.localName with
    | some localName => " as ".toList ++ localName
    | none => []) ++
  (match d.locator with
    | some locator => " from \"".toList ++ locator ++ ['"']
    | none => []) ++ [';']

inductive Statement where
  | importDecl (d : ImportDecl)
  | decl (d : Decl)
  | bind (b : Bind)
  /-- `extern "C" { … }`, the namespace `__extern_C` -/
  | externBlock (members : List Decl)
  | other (node : Node)

def bindKey (b : Bind) : Name :=
  match b.selfType, b.traitType with
  | some self, some trait => "bind:".toList ++ self.text ++ ':' :: trait.text
  | _, _ => "bind".toList

namespace Statement

/-- Empty for a statement that declares no name. -/
def declarationName : Statement → Name
  | .decl d => d.name
  | .bind b => bindKey b
  | _ => []

def collectDeclarationNames : Statement → List Name
  | .externBlock members => (members.map Decl.name).filter (· ≠ [])
  | st => if st.declarationName = [] then [] else [st.declarationName]

def renameDeclaration (newName : Name) : Statement → Option Statement
  | .decl d => some (.decl { d with name := newName })
  | _ => none

def isMainFunction : Statement → Bool
  | .decl d => d.kind = .function ∧ d.name = "main".toList
  | _ => false

/-- Apply a pass to the tree of a statement; neither pass goes into an extern block. -/
def mapNode (f : Node → Node) : Statement → Statement
  | .decl d => .decl { d with node := f d.node }
  | .bind b => .bind { b with node := f b.node }
  | .other n => .other (f n)
  | st => st

def collect : Statement → List Name
  | .decl d => d.node.collect
  | .bind b => b.node.collect
  | _ => []

end Statement

/-! ## 2. Sources and paths -/

/-- A parsed module with the directives of its text: `importShares` has one list for each import. -/
structure ModuleSource where
  bundles : List Name
  sharesByName : List (Name × List Name)
  importShares : List (List Name)
  coreAutoImport : Bool
  body : List Statement

inductive SourceError where
  | malformedDirective (directive : Name)
  | syntaxError (detail : Name)

abbrev Source := Except SourceError ModuleSource

/-- The file system and the options. -/
structure Environment where
  /-- the regular files -/
  files : List Key
  normalizePath : Name → Key
  readSourceFile : Key → Option Source
  configuredSearchPaths : List Key
  stdlibRoot : Option Key
  privilegedModules : List Name
  skipImportResolution : Bool
  normalize_idem : ∀ p, normalizePath (normalizePath p) = normalizePath p

/-- The directory of a path; that of `/a` is `/`. -/
def parentPath (p : Name) : Name :=
  let front := ((p.reverse.dropWhile (· ≠ '/')).drop 1).reverse
  if front = [] ∧ p.head? = some '/' then ['/'] else front

def fileName (p : Name) : Name := (p.reverse.takeWhile (· ≠ '/')).reverse

/-- `root / p` -/
def joinPath (root p : Name) : Name :=
  if p.head? = some '/' ∨ root = [] then p
  else if root.getLast? = some '/' then root ++ p
  else root ++ '/' :: p

/-- The file name before its last dot, if there is one that is not its first character. -/
def stem (p : Name) : Name :=
  let name := fileName p
  let front := ((name.reverse.dropWhile (· ≠ '.')).drop 1).reverse
  if front = [] ∨ name = "..".toList then name else front

def hasExtension (p : Name) : Bool := stem p ≠ fileName p

/-- The pieces between the `::`. -/
def pathSegments : Name → List Name
  | [] => [[]]
  | [c] => [[c]]
  | c :: d :: cs =>
    if c = ':' ∧ d = ':' then [] :: pathSegments cs
    else
      match pathSegments (d :: cs) with
      | [] => [[c]]
      | w :: ws => (c :: w) :: ws

def modulePathRelativeFile (modulePath : Name) : Name :=
  let relative := ((pathSegments modulePath).filter (· ≠ [])).foldl joinPath []
  if hasExtension relative then relative else relative ++ ".vyb".toList

def pathIsUnder (path root : Key) : Bool := (splitSep '/' root).isPrefixOf (splitSep '/' path)

inductive ResolveError where
  | circularImport (key : Key) (importSpelling : Name) (chain : List Key)
  | previouslyFailed (key : Key)
  | malformedDirective (directive : Name)
  /-- with the imports through which it was reached, as far as they have been unwound -/
  | parseError (key : Key) (detail : Name) (importers : List (Key × Nat))
  | namespaceWithList (key : Key)
  | defaultImport (d : ImportDecl)
  | unsupportedProtocol (d : ImportDecl)
  | fileNotFound (d : ImportDecl) (importer : Key) (tried : List Key)
  | privilegedPackage (source : Name)
  | unreadable (path : Key)
  | importedMain (path : Key)
  | duplicateBind (bindKey : Name) (importer : Key) (line : Nat)
  | duplicateSymbol (name : Name) (importer : Key) (line : Nat) (origins : Option (Option Key × Key))
  | cannotAlias (name : Name) (path : Key)
  | cannotIdentify (name : Name) (path : Key)
  | cannotMangle (name : Name) (path : Key)
  | notExported (name : Name) (path importer : Key) (line : Nat)
  | moduleMissing (key : Key)
  /-- of the model only, and never thrown by `resolveRoot` -/
  | outOfFuel

section Paths

variable (env : Environment)

/-- `buildSearchRoots`: the importer's directory first. -/
def searchRoots (importer : Key) : List Key :=
  ((parentPath importer :: env.configuredSearchPaths).map env.normalizePath).eraseDups

/-- The paths that `resolveImportPath` tries, in this order. -/
def candidates (d : ImportDecl) (importer : Key) : List Key :=
  match d.locator with
  | some locator => [env.normalizePath (joinPath (parentPath importer) locator)]
  | none =>
    let relative := modulePathRelativeFile d.source
    (searchRoots env importer).flatMap fun root =>
      [env.normalizePath (joinPath root relative),
        env.normalizePath (joinPath (joinPath (joinPath root (parentPath relative)) (stem relative))
          "mod.vyb".toList)]

def resolveImportPath (d : ImportDecl) (importer : Key) : Except ResolveError Key :=
  if d.defaultImport.isSome then .error (.defaultImport d)
  else if d.locator.any (occurs "://".toList) then .error (.unsupportedProtocol d)
  else
    match (candidates env d importer).find? (· ∈ env.files) with
    | some path => .ok path
    | none => .error (.fileNotFound d importer (candidates env d importer))

/-- `moduleHasCoreAutoImportConflict` -/
def coreAutoImportConflict (body : List Statement) : Bool :=
  body.any fun
    | .importDecl d =>
      d.source ∈ ["core::aspects".toList, "core::prelude".toList, "prelude".toList]
    | .decl d => d.kind = .aspect ∧ d.name ∈ coreAspects
    | .bind b =>
      match b.selfType, b.traitType with
      | some self, some trait => self.text ∈ scalarTargets ∧ trait.text ∈ coreAspects
      | _, _ => false
    | _ => false
where
  coreAspects : List Name := ["Display".toList, "Debug".toList, "Clone".toList, "Equatable".toList,
    "Hashable".toList, "Comparable".toList]
  scalarTargets : List Name := ["Int".toList, "Float".toList, "Bool".toList, "String".toList]

def coreImport : ImportDecl where
  kind := .trustedImport
  source := "core::aspects".toList
  locator := none
  specifiers := []
  defaultImport := none
  namespaceImport := none
  line := 1

/-- The synthetic import of `core::aspects`, with an empty share list of its own. -/
def withCoreImport (key : Key) (m : ModuleSource) : ModuleSource :=
  if m.coreAutoImport && !(env.stdlibRoot.any (pathIsUnder key ·)) && !coreAutoImportConflict m.body then
    { m with importShares := [] :: m.importShares, body := .importDecl coreImport :: m.body }
  else m

end Paths

/-! ## 3. The state -/

inductive ModuleState where
  | unresolved | parsing | resolved | failed
  deriving DecidableEq

structure ModuleRecord where
  module : Option (List Statement)
  importedModuleKeys : List Key
  state : ModuleState
  importSpelling : Name
  bundles : List Name
  sharesByName : List (Name × List Name)

def ModuleRecord.empty : ModuleRecord := ⟨none, [], .unresolved, [], [], []⟩

structure Registry where
  records : Key → ModuleRecord
  activeStack : List Key
  topologicalOrder : List Key
  moduleKeyByName : Name → Option Key
  effectiveScope : Key → List Name
  exports : Key → List Name
  allNames : Key → List Name
  namespaces : Key → NamespaceMap

def Registry.empty : Registry where
  records _ := .empty
  activeStack := []
  topologicalOrder := []
  moduleKeyByName _ := none
  effectiveScope _ := []
  exports _ := []
  allNames _ := []
  namespaces _ := []

abbrev Resolve := EStateM ResolveError Registry

def Registry.updateRecord (s : Registry) (key : Key) (f : ModuleRecord → ModuleRecord) : Registry :=
  { s with records := Function.update s.records key (f (s.records key)) }

/-! ## 4. Visibility -/

def sharesAllow (shares importerBundles : List Name) : Bool :=
  shares.any fun share => share = "all".toList ∨ share ∈ importerBundles

def declarationVisible (name : Name) (sharesByName : List (Name × List Name))
    (importerBundles : List Name) (kind : ImportKind) : Bool :=
  kind = .smuggle || (sharesByName.lookup name).any (sharesAllow · importerBundles)

/-! ## 5. The closure of an import -/

/-- The declarations and binds of a module that an import may carry. -/
structure Carried where
  names : List Name
  bindKeys : List Name
  reachableTypes : List Name
  referencedMethods : List Name
  declWalked : List Name
  bindWalked : List Name

section Closure

variable (body : List Statement)

/-- `declByName`: the first declaration of a name. -/
def declByName (name : Name) : Option Decl :=
  body.findSome? fun
    | .decl d => if d.name = name then some d else none
    | _ => none

/-- `bindByKey`: the first bind with a key. -/
def bindByKey (key : Name) : Option Bind :=
  body.findSome? fun
    | .bind b => if bindKey b = key then some b else none
    | _ => none

def binds : List Bind := body.filterMap fun
  | .bind b => some b
  | _ => none

def moduleDeclNames : List Name := body.filterMap fun
  | .decl d => if d.name = [] then none else some d.name
  | _ => none

def bindsWithKey (key : Name) : List Bind := (binds body).filter (bindKey · = key)

/-- `bindSelfBase`: the last bind with the key counts. -/
def bindSelfBase (key : Name) : Option Name :=
  (bindsWithKey body key).reverse.findSome? fun b => b.selfType.bind TypeRef.base

/-- `bindTypeBases`: the self type, the aspect and the types the methods return. -/
def bindTypeBases (key : Name) : List Name :=
  (bindsWithKey body key).flatMap fun b =>
    (b.selfType.bind TypeRef.base).toList ++ (b.traitType.bind TypeRef.base).toList ++
      b.methods.filterMap Method.returnBase

/-- One collected identifier. -/
def absorb (c : Carried) (ref : Name) : Carried where
  names := if ref ∈ moduleDeclNames body ∧ ref ∉ c.names then c.names ++ [ref] else c.names
  bindKeys := c.bindKeys
  reachableTypes := c.reachableTypes ++ [ref]
  referencedMethods :=
    if (binds body).any (·.methods.any (·.name = ref)) then c.referencedMethods ++ [ref]
    else c.referencedMethods
  declWalked := c.declWalked
  bindWalked := c.bindWalked

/-- Walk a carried declaration, once. -/
def walkDecl (c : Carried) (name : Name) : Carried :=
  if name ∈ c.declWalked then c
  else
    let c := { c with declWalked := name :: c.declWalked }
    match declByName body name with
    | some d => d.node.collect.foldl (absorb body) c
    | none => c

def walkBind (c : Carried) (key : Name) : Carried :=
  if key ∈ c.bindWalked then c
  else
    let c := { c with bindWalked := key :: c.bindWalked }
    match bindByKey body key with
    | some b => b.node.collect.foldl (absorb body) c
    | none => c

/-- Admit a bind whose self type is reachable. -/
def admitBind (wanted : Carried → Name → Bool) (c : Carried) (key : Name) : Carried :=
  if key ∉ c.bindKeys ∧ wanted c key ∧ (bindSelfBase body key).any (· ∈ c.reachableTypes) then
    { c with
      bindKeys := c.bindKeys ++ [key]
      reachableTypes := c.reachableTypes ++ bindTypeBases body key }
  else c

/-- `while (admitted)`: every round but the last admits a bind. -/
def admitLoop (wanted : Carried → Name → Bool) : Nat → Carried → Carried
  | 0, c => c
  | fuel + 1, c =>
    let c' := ((binds body).map bindKey).foldl (admitBind body wanted) c
    if c'.bindKeys.length = c.bindKeys.length then c' else admitLoop wanted fuel c'

/-- A referenced method is one of the bind. -/
def dispatched (c : Carried) (key : Name) : Bool :=
  (bindsWithKey body key).any (·.methods.any (·.name ∈ c.referencedMethods))

/-- One round of the fixpoint: walk what is carried, then admit the binds of referenced methods, then
    those of reachable types. -/
def closureRound (c : Carried) : Carried :=
  let c := c.names.foldl (walkDecl body) c
  let c := c.bindKeys.foldl (walkBind body) c
  let rounds := (binds body).length + 1
  admitLoop body (fun _ _ => true) rounds (admitLoop body (dispatched body) rounds c)

/-- `while (changed)`: every round but the last carries a name or a bind more. -/
def closureLoop : Nat → Carried → Carried
  | 0, c => c
  | fuel + 1, c =>
    let c' := closureRound body c
    if c'.names.length = c.names.length ∧ c'.bindKeys.length = c.bindKeys.length then c'
    else closureLoop fuel c'

def closure (seeds : List Name) : Carried :=
  closureLoop body ((moduleDeclNames body).length + (binds body).length + 1)
    ⟨seeds, [], seeds, [], [], []⟩

end Closure

/-! ## 6. Grants -/

/-- What one import is about, read off before its splice. -/
structure ImportContext where
  key : Key
  bundles : List Name
  decl : ImportDecl
  importShare : List Name
  importedKey : Key
  imported : ModuleRecord
  body : List Statement
  carried : Option Carried
  declaringOrigin : Name → Key

namespace ImportContext

variable (c : ImportContext)

/-- `requestedRenames`: the names of the list, each with its name in the importer. -/
def requestedRenames : List (Name × Name) :=
  (c.decl.specifiers.map fun s => (s.importedName, s.localName.getD s.importedName)).foldl overwrite []

def requestedNames : List Name := c.requestedRenames.map Prod.fst

def isSmuggle : Bool := c.decl.kind = .smuggle

def isNamespaceImport : Bool := c.decl.namespaceImport.isSome

def nsName : Name := c.decl.namespaceImport.getD []

end ImportContext

/-- The names that an import brings into the importer's scope. -/
def grantedNames (c : ImportContext) (importedExports importedAll : List Name) : List Name :=
  if c.requestedRenames = [] then if c.isSmuggle then importedAll else importedExports
  else
    (c.requestedRenames.filter fun r => c.isSmuggle ∨ r.1 ∈ importedExports).map Prod.snd ++
      match c.carried with
      | some carried => carried.names.filter fun n => n ∉ c.requestedNames ∧ n ∈ importedExports
      | none => []

/-- The names that a shared import adds to the importer's exports. -/
def reexportedNames (c : ImportContext) (importedExports : List Name) : List Name :=
  if c.importShare = [] ∨ c.isSmuggle then []
  else if c.requestedRenames = [] then importedExports
  else (c.requestedRenames.filter fun r => r.1 ∈ importedExports).map Prod.snd

/-- A namespace import brings nothing into the unqualified scope. -/
def Registry.grant (s : Registry) (c : ImportContext) : Registry :=
  if c.isNamespaceImport then s
  else
    { s with
      effectiveScope := Function.update s.effectiveScope c.key (s.effectiveScope c.key ++
        grantedNames c (s.exports c.importedKey) (s.allNames c.importedKey))
      exports := Function.update s.exports c.key (s.exports c.key ++
        reexportedNames c (s.exports c.importedKey)) }

/-! ## 7. The splice -/

def mangledNamespaceName (ns symbol : Name) : Name := "__ns_".toList ++ ns ++ '_' :: symbol

/-- FNV-1a over the bytes of the module key, 64 bits. -/
def moduleHash (moduleKey : Key) : Nat :=
  (moduleKey.flatMap String.utf8EncodeChar).foldl
    (fun h b => (h ^^^ b.toNat) * 1099511628211 % 2 ^ 64) 1469598103934665603

def privateMangledName (moduleKey : Key) (symbol : Name) : Name :=
  let h := moduleHash moduleKey
  let tag := [28, 24, 20, 16, 12, 8, 4, 0].map fun shift => Nat.digitChar ((h >>> shift) % 16)
  "__pv_".toList ++ tag ++ '_' :: symbol

def isPrivateMangledName (name : Name) : Bool := "__pv_".toList.isPrefixOf name

/-- The local variables of `resolveModule` that outlive one statement. -/
structure Frame where
  resolvedBody : List Statement
  seenNames : List Name
  seenOrigins : Name → Option Key
  importShares : List (List Name)
  localNamespaces : NamespaceMap
  ownStmtIndices : List Nat

def Frame.start (importShares : List (List Name)) : Frame := ⟨[], [], fun _ => none, importShares, [], []⟩

namespace Frame

/-- A name that is now in the importer. -/
def see (f : Frame) (name : Name) (origin : Key) : Frame :=
  { f with
    seenNames := name :: f.seenNames
    seenOrigins := Function.update f.seenOrigins name (some origin) }

def push (f : Frame) (stmt : Statement) : Frame := { f with resolvedBody := f.resolvedBody ++ [stmt] }

/-- A statement of the module itself. -/
def own (key : Key) (f : Frame) (stmt : Statement) : Frame :=
  let f := { f with ownStmtIndices := f.ownStmtIndices ++ [f.resolvedBody.length] }
  (if stmt.declarationName = [] then f else f.see stmt.declarationName key).push stmt

end Frame

/-- What the splice of one import changes besides. -/
structure Splice where
  frame : Frame
  requestedNames : List Name
  namespaceMangled : List (Name × Name)

section Splicing

variable (c : ImportContext)

def requestedNow (st : Splice) (name : Name) : Bool := name ∈ st.requestedNames

/-- `privateMangled`: the names of the imported module that are in the importer already and come from
    another module there. -/
def privateMangled (f : Frame) : List (Name × Name) :=
  if c.isNamespaceImport then []
  else
    (c.body.filter fun st => !st.isMainFunction).flatMap fun st =>
      (st.collectDeclarationNames.filter fun n =>
        !isPrivateMangledName n && n ∈ f.seenNames &&
          (f.seenOrigins n).any (· ≠ c.declaringOrigin n)).map
        fun n => (n, privateMangledName (c.declaringOrigin n) n)

/-- `namespaceMangled`, precomputed: the visible names. -/
def visibleMangled : List (Name × Name) :=
  match c.decl.namespaceImport with
  | none => []
  | some ns =>
    (c.body.filter fun st => !st.isMainFunction).flatMap fun st =>
      match st with
      | .bind _ => []
      | st =>
        (st.collectDeclarationNames.filter
          (declarationVisible · c.imported.sharesByName c.bundles c.decl.kind)).map
          fun n => (n, mangledNamespaceName ns n)

/-- `carryShare`: a copied declaration keeps its share list, or gets that of the import. -/
def carryShare (originName localName : Name) : Resolve Unit :=
  match c.imported.sharesByName.lookup originName with
  | some shares => modify fun s => s.updateRecord c.key fun r =>
    { r with sharesByName := overwrite r.sharesByName (localName, shares) }
  | none =>
    if c.importShare = [] then pure ()
    else modify fun s => s.updateRecord c.key fun r =>
      { r with sharesByName := overwrite r.sharesByName (localName, c.importShare) }

/-- Copy `stmt` under `name`. -/
def place (st : Splice) (originName name : Name) (stmt : Statement) : Resolve Splice := do
  carryShare c originName name
  pure { st with frame := (st.frame.see name (c.declaringOrigin originName)).push stmt }

def spliceBind (st : Splice) (b : Bind) : Resolve Splice :=
  let key := bindKey b
  let requested := c.requestedNames.isEmpty || b.traitType.any (·.text ∈ c.requestedNames)
  let closureCarried := c.carried.any (key ∈ ·.bindKeys)
  if !requested && !closureCarried then pure st
  else if !closureCarried && !declarationVisible key c.imported.sharesByName c.bundles c.decl.kind then
    pure st
  else if key ∈ st.frame.seenNames then
    if closureCarried || (st.frame.seenOrigins key).getD [] = c.declaringOrigin key then pure st
    else throw (.duplicateBind key c.key c.decl.line)
  else place c st key key (.bind b)

/-- The names under which a declaration is copied: the alias of the list comes first, a private identity
    replaces it. -/
def localCopy (mangled : List (Name × Name)) (st : Splice) (d : Decl) : Name × Statement :=
  let name := if st.requestedNames = [] then d.name else (c.requestedRenames.lookup d.name).getD d.name
  if c.isNamespaceImport then (name, .decl { d with name := name })
  else
    let name := if isPrivateMangledName name then name else (mangled.lookup d.name).getD name
    (name, .decl { d with name := name, node := mangleBare mangled d.node })

def spliceDecl (mangled : List (Name × Name)) (st : Splice) (d : Decl) : Resolve Splice :=
  if c.carried.any (d.name ∉ ·.names) then pure st
  else
    let closureCarry := c.carried.isSome && !requestedNow st d.name
    if !closureCarry && !declarationVisible d.name c.imported.sharesByName c.bundles c.decl.kind then
      pure st
    else
      let (name, copy) := localCopy c mangled st d
      let st := { st with requestedNames := st.requestedNames.filter (· ≠ d.name) }
      if name ∈ st.frame.seenNames then
        if isPrivateMangledName name || st.frame.seenOrigins name = some (c.declaringOrigin d.name) then
          pure st
        else if c.requestedNames ≠ [] ∧ d.name ∉ c.requestedNames then pure st
        else throw (.duplicateSymbol name c.key c.decl.line
          (some (st.frame.seenOrigins name, c.declaringOrigin d.name)))
      else if c.isNamespaceImport then
        let mangledName := mangledNamespaceName c.nsName d.name
        if mangledName ∈ st.frame.seenNames then
          throw (.duplicateSymbol mangledName c.key c.decl.line none)
        else
          place c { st with namespaceMangled := overwrite st.namespaceMangled (d.name, mangledName) }
            d.name mangledName
            (.decl { d with name := mangledName, node := mangleBare st.namespaceMangled d.node })
      else place c st d.name name copy

/-- One statement of the imported module. What declares no name, an extern block too, is not copied. -/
def spliceStatement (mangled : List (Name × Name)) (st : Splice) (stmt : Statement) : Resolve Splice :=
  if stmt.isMainFunction then throw (.importedMain c.importedKey)
  else
    match stmt with
    | .bind b => spliceBind c st b
    | .decl d => if d.name = [] then pure st else spliceDecl c mangled st d
    | _ => pure st

/-- The splice of one import. -/
def splice (f : Frame) : Resolve Frame := do
  let st ← c.body.foldlM (spliceStatement c (privateMangled c f)) ⟨f, c.requestedNames, visibleMangled c⟩
  match st.requestedNames with
  | missing :: _ => throw (.notExported missing c.importedKey c.key c.decl.line)
  | [] =>
    match c.decl.namespaceImport with
    | some ns =>
      pure { st.frame with
        localNamespaces := overwrite st.frame.localNamespaces (ns, st.namespaceMangled) }
    | none => pure st.frame

end Splicing

/-! ## 8. Resolving -/

section Resolving

variable (env : Environment)

/-- Parse errors name the imports on the way out. -/
def ResolveError.importedFrom (key : Key) (line : Nat) : ResolveError → ResolveError
  | .parseError k detail importers => .parseError k detail (importers ++ [(key, line)])
  | e => e

/-- The file of an import. -/
def locate (key : Key) (d : ImportDecl) : Resolve (Key × Source) :=
  match resolveImportPath env d key with
  | .error e => throw e
  | .ok path =>
    if d.kind ≠ .smuggle ∧ d.source ∈ env.privilegedModules then throw (.privilegedPackage d.source)
    else
      match env.readSourceFile path with
      | none => throw (.unreadable path)
      | some source => pure (path, source)

/-- The context of an import once its module is resolved. A whole-module import carries from what the
    module exports. -/
def importContext (s : Registry) (key : Key) (bundles : List Name) (d : ImportDecl)
    (importShare : List Name) (importedKey : Key) : ImportContext :=
  let imported := s.records importedKey
  let requested := d.specifiers.map Specifier.importedName
  { key, bundles, decl := d, importShare, importedKey, imported
    body := imported.module.getD []
    carried :=
      match d.namespaceImport, imported.module with
      | none, some body => some (closure body (if requested = [] then s.exports importedKey else requested))
      | _, _ => none
    declaringOrigin := fun n => (s.moduleKeyByName n).getD key }

/-- What an import does once its module is resolved. -/
def importResolved (key : Key) (bundles : List Name) (d : ImportDecl) (importShare : List Name)
    (importedKey : Key) (f : Frame) : Resolve Frame := do
  modify fun s => s.updateRecord key fun r =>
    { r with importedModuleKeys := r.importedModuleKeys ++ [importedKey] }
  let s ← get
  let c := importContext s key bundles d importShare importedKey
  modify fun s => s.grant c
  if c.imported.module.isNone then pure f else splice c f

/-- One statement of the module. -/
def resolveStatement (resolve : Key → Source → Name → Resolve Key) (key : Key) (bundles : List Name)
    (f : Frame) (stmt : Statement) : Resolve Frame :=
  match stmt with
  | .importDecl d => do
    let importShare := f.importShares.headD []
    let f := { f with importShares := f.importShares.tail }
    if d.namespaceImport.isSome ∧ d.specifiers ≠ [] then throw (.namespaceWithList key)
    else if env.skipImportResolution then pure (f.own key stmt)
    else do
      let (path, source) ← locate env key d
      let importedKey ← tryCatch (resolve path source d.spelling)
        fun e => throw (e.importedFrom key d.line)
      importResolved key bundles d importShare importedKey f
  | stmt => pure (f.own key stmt)

/-- The declared and the shared names of a module whose resolution starts. -/
def Registry.declare (s : Registry) (key : Key) (m : ModuleSource) : Registry :=
  let names := m.body.flatMap Statement.collectDeclarationNames
  { s.updateRecord key (fun r =>
      { r with bundles := m.bundles, sharesByName := m.sharesByName, importedModuleKeys := [] }) with
    moduleKeyByName := fun n => if n ∈ names then some key else s.moduleKeyByName n
    effectiveScope := Function.update s.effectiveScope key (s.effectiveScope key ++ names)
    exports := Function.update s.exports key (s.exports key ++ m.sharesByName.map Prod.fst) }

/-- Own statements get their qualified names replaced, if a namespace is bound. -/
def rewrittenBody (f : Frame) : List Statement :=
  if f.localNamespaces = [] then f.resolvedBody
  else f.resolvedBody.zipIdx.map fun (st, i) =>
    if i ∈ f.ownStmtIndices then st.mapNode (rewriteNamespace f.localNamespaces) else st

def Registry.finish (s : Registry) (key : Key) (f : Frame) : Registry :=
  let body := rewrittenBody f
  { s.updateRecord key (fun r => { r with module := some body, state := .resolved }) with
    topologicalOrder := s.topologicalOrder ++ [key]
    allNames := Function.update s.allNames key (body.flatMap Statement.collectDeclarationNames)
    namespaces := Function.update s.namespaces key (f.localNamespaces.foldl overwrite (s.namespaces key)) }

/-- The guarded part of `resolveModule`. -/
def resolveBody (resolve : Key → Source → Name → Resolve Key) (key : Key) (source : Source) :
    Resolve Unit :=
  match source with
  | .error (.malformedDirective directive) => throw (.malformedDirective directive)
  | .error (.syntaxError detail) => throw (.parseError key detail [])
  | .ok m => do
    modify fun s => s.declare key m
    let m := withCoreImport env key m
    let f ← m.body.foldlM (resolveStatement env resolve key m.bundles) (.start m.importShares)
    modify fun s => s.finish key f

def Registry.enter (s : Registry) (key : Key) : Registry :=
  { s.updateRecord key (fun r => { r with state := .parsing }) with
    activeStack := s.activeStack ++ [key] }

/-- `activeStack_.pop_back()` -/
def Registry.leave (s : Registry) : Registry := { s with activeStack := s.activeStack.dropLast }

def Registry.fail (s : Registry) (key : Key) : Registry :=
  (s.updateRecord key fun r => { r with state := .failed }).leave

/-- `resolveModule`; `fuel` bounds the depth of the recursion. -/
def resolveModule : Nat → Key → Source → Name → Resolve Key
  | 0, _, _, _ => throw .outOfFuel
  | fuel + 1, sourcePath, source, importSpelling => do
    let key := env.normalizePath sourcePath
    modify fun s => s.updateRecord key fun r => { r with importSpelling := importSpelling }
    let s ← get
    match (s.records key).state with
    | .resolved => pure key
    | .parsing =>
      throw (.circularImport key importSpelling (s.activeStack.dropWhile (· ≠ key) ++ [key]))
    | .failed => throw (.previouslyFailed key)
    | .unresolved =>
      modify fun s => s.enter key
      tryCatch (resolveBody env (resolveModule fuel) key source) fun e => do
        modify fun s => s.fail key
        throw e
      modify Registry.leave
      pure key

/-- A resolution goes at most once into every file and once into the root. -/
def resolveFuel : Nat := env.files.length + 2

def resolveRoot (source : Source) (fileName : Name) : Resolve (List Statement) := do
  let rootKey ← resolveModule env (resolveFuel env) fileName source "<root>".toList
  let s ← get
  match (s.records rootKey).module with
  | none => throw (.moduleMissing rootKey)
  | some module => do
    modify fun s => s.updateRecord rootKey fun r => { r with module := none }
    pure module

end Resolving

/-! ## 9. Small file systems -/

/-- A file system with the given modules and nothing else; paths are canonical as they are. -/
def Environment.ofModules (modules : List (Key × ModuleSource)) : Environment where
  files := modules.map Prod.fst
  normalizePath := id
  readSourceFile k := (modules.lookup k).map .ok
  configuredSearchPaths := []
  stdlibRoot := none
  privilegedModules := []
  skipImportResolution := false
  normalize_idem _ := rfl

/-- `import source;` or, with names, `import source::{…};` -/
def importOf (source : Name) (names : List Name) : Statement :=
  .importDecl { coreImport with source, specifiers := names.map (⟨·, none⟩) }

/-- A module without directives, except that it opts out of `core::aspects`. -/
def plainModule (body : List Statement) : ModuleSource := ⟨[], [], [], false, body⟩

end Vyb.Modules

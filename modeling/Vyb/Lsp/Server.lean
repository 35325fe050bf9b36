/-
  Subject:   The language server (`src/lsp.cpp`): its state, the index of a document, the answers, the dispatch.

  The server has one document: a `uri`, a `text` and the index of what was parsed last. Every `didOpen` and
  `didChange` puts its own document there, and an answer is made from it, whatever document the request names.

  * `Server.reindex`, `hoverAt`, `definitionAt`, `completions`, `handle` -- the model;
  * `Note`, `run`, `answer` -- notifications, the server behind them, the answer to a request;
  * `run_of_named` -- the state behind notifications: the last document named, with the last text given;
  * `lastNamed_of_about` -- with one document only, these are the document and its text;
  * **`answers_iff`** -- the answers for an open document are those of its text exactly if the last notification
    is about it and no other text was given to the server since.
-/
import Vyb.Lib.Split
import Vyb.Lsp.Json

namespace Vyb.Lsp

open Lib JsonText List Option
open Vyb.Runtime (Str)

/-! ## 1. Documents -/

/-- What `buildSymbol` and `reindex` read of a declaration; types and names in their texts. -/
inductive Decl where
  | function (id : Option Bytes) (params : List (Option Bytes × Option Bytes)) (returnType : Option Bytes)
  | struct (name : Option Bytes) (fields : List (Option Bytes))
  | enum (name : Option Bytes)
  | typeAlias (name : Option Bytes)
  | aspect (name : Option Bytes)
  | importDecl (source : Option Bytes)
  | bind (selfType : Option Bytes) (methods : List (Option Bytes))
  | other

/-- A statement of a module. -/
structure Stmt where
  line : Nat
  column : Nat
  decl : Decl

/-- The parser of the compiler: the module of a text, or none. -/
abbrev ParseFn := Bytes → Bytes → Option (List Stmt)

/-- `kind` of a symbol -/
inductive Kind where
  | function
  | struct
  | enum
  | typeAlias
  | aspect
  | importDecl
  | bind
  deriving DecidableEq, Repr

def Kind.text : Kind → Bytes
  | .function => Str.ascii "function"
  | .struct => Str.ascii "struct"
  | .enum => Str.ascii "enum"
  | .typeAlias => Str.ascii "alias"
  | .aspect => Str.ascii "aspect"
  | .importDecl => Str.ascii "import"
  | .bind => Str.ascii "bind"

/-- `struct Symbol`; nothing sets its `doc`. -/
structure Symbol where
  name : Bytes
  kind : Kind
  line : Nat
  col : Nat
  signature : Bytes

/-- A parameter in a signature. -/
def paramText (p : Option Bytes × Option Bytes) : Bytes :=
  p.1.getD [] ++
    match p.2 with
    | some t => Str.ascii "<" ++ t ++ Str.ascii ">"
    | none => []

/-- Parts with `", "` between them. -/
def commaJoin : List Bytes → Bytes
  | [] => []
  | [t] => t
  | t :: u :: ts => t ++ Str.ascii ", " ++ commaJoin (u :: ts)

/-- `buildSymbol`: name, kind and signature. -/
def buildSymbol : Decl → Option (Bytes × Kind × Bytes)
  | .function (some name) params returnType =>
    some (name, .function, name ++ Str.ascii "(" ++ commaJoin (params.map paramText) ++ Str.ascii ")" ++
      match returnType with
      | some t => Str.ascii "<" ++ t ++ Str.ascii ">"
      | none => [])
  | .struct (some name) _ => some (name, .struct, Str.ascii "struct " ++ name)
  | .enum (some name) => some (name, .enum, Str.ascii "enum " ++ name)
  | .typeAlias (some name) => some (name, .typeAlias, Str.ascii "type " ++ name)
  | .aspect (some name) => some (name, .aspect, Str.ascii "aspect " ++ name)
  | .importDecl (some source) => some (source, .importDecl, Str.ascii "import " ++ source)
  | .bind selfType _ =>
    let name := match selfType with
      | some t => Str.ascii "bind " ++ t
      | none => Str.ascii "bind"
    some (name, .bind, name)
  | _ => none

def stmtSymbol (s : Stmt) : Option Symbol :=
  (buildSymbol s.decl).map fun b => ⟨b.1, b.2.1, s.line, s.column, b.2.2⟩

/-- The second half of an entry of `dotSuggest_` -/
inductive Suggestion where
  | field
  | method
  deriving DecidableEq, Repr

def Suggestion.text : Suggestion → Bytes
  | .field => Str.ascii "field"
  | .method => Str.ascii "method"

/-- The fields and methods of a declaration that has a symbol. -/
def stmtSuggestions (s : Stmt) : List (Bytes × Suggestion) :=
  match s.decl with
  | .struct (some _) fields => fields.filterMap fun f => f.map fun name => (name, .field)
  | .bind _ methods => methods.filterMap fun m => m.map fun name => (name, .method)
  | _ => []

structure Server where
  uri : Bytes
  text : Bytes
  symbols : List Symbol
  dotSuggest : List (Bytes × Suggestion)
  shuttingDown : Bool

namespace Server

def start : Server := ⟨[], [], [], [], false⟩

def reindex (parse : ParseFn) (s : Server) : Server :=
  let body := (parse s.text s.uri).getD []
  { s with symbols := body.filterMap stmtSymbol, dotSuggest := body.flatMap stmtSuggestions }

/-- A byte of a word. -/
def isAlnum (c : UInt8) : Bool := (48 ≤ c && c ≤ 57) || (65 ≤ c && c ≤ 90) || (97 ≤ c && c ≤ 122)

def isWord (c : UInt8) : Bool := isAlnum c || c == 95 || c == 46

/-- `wordAt`: the bytes of a word on both sides of the column. -/
def wordAt (s : Server) (line0 col0 : Nat) : Bytes :=
  match (splitSep 10 s.text)[line0]? with
  | none => []
  | some ln => ((ln.take col0).reverse.takeWhile isWord).reverse ++ (ln.drop col0).takeWhile isWord

def findSymbol (s : Server) (name : Bytes) : Option Symbol := s.symbols.find? fun sym => sym.name == name

/-- What stands behind the last `c`, if there is one. -/
def behindLast (c : UInt8) (w : Bytes) : Option Bytes :=
  if c ∈ w then some ((w.reverse.takeWhile (· ≠ c)).reverse) else none

/-- The symbol of a word, or of what stands behind its last dot. -/
def symbolOf (s : Server) (w : Bytes) : Option Symbol :=
  (s.findSymbol w).or ((behindLast 46 w).bind s.findSymbol)

end Server

open Server hiding text

/-! ## 2. Answers -/

/-- An object with these members. -/
def object (ms : List (String × Json)) : Json := ms.foldl (fun j m => Json.set j (Str.ascii m.1) m.2) (.obj [])

/-- `->s`, empty for what is no string -/
def Json.s : Json → Bytes
  | .str s => s
  | _ => []

/-- `(unsigned)...->num` -/
def Json.unsigned : Json → Nat
  | .num q => q.floor.toNat
  | _ => 0

def Json.items : Json → List Json
  | .arr vs => vs
  | _ => []

/-- The members that the server reads. -/
inductive Key where
  | jsonrpc
  | id
  | method
  | params
  | textDocument
  | uri
  | text
  | contentChanges
  | position
  | line
  | character
  deriving DecidableEq, Repr

def Key.bytes : Key → Bytes
  | .jsonrpc => Str.ascii "jsonrpc"
  | .id => Str.ascii "id"
  | .method => Str.ascii "method"
  | .params => Str.ascii "params"
  | .textDocument => Str.ascii "textDocument"
  | .uri => Str.ascii "uri"
  | .text => Str.ascii "text"
  | .contentChanges => Str.ascii "contentChanges"
  | .position => Str.ascii "position"
  | .line => Str.ascii "line"
  | .character => Str.ascii "character"

/-- `get` of such a member -/
def Json.member (j : Json) (k : Key) : Option Json := Json.get j k.bytes

/-- Line and character of `params.position`. -/
def position (params : Json) : Option (Nat × Nat) :=
  (params.member .position).map fun pos =>
    (((pos.member .line).map Json.unsigned).getD 0, ((pos.member .character).map Json.unsigned).getD 0)

/-- `n - 1` of an `unsigned` -/
def pred32 (n : Nat) : Nat := (n + 2 ^ 32 - 1) % 2 ^ 32

namespace Server

variable (s : Server)

def hoverAt (params : Json) : Json :=
  match position params, params.member .textDocument with
  | some (line, ch), some _ =>
    let w := s.wordAt line ch
    if w.isEmpty then .null
    else
      match s.symbolOf w with
      | none => .null
      | some sym =>
        let contents := Str.ascii "**" ++ sym.kind.text ++ Str.ascii "** " ++ sym.signature ++ [10, 10]
        object [("contents", object [("kind", .str (Str.ascii "markdown")), ("value", .str contents)])]
  | _, _ => .null

def definitionAt (params : Json) : Json :=
  match position params with
  | none => .null
  | some (line, ch) =>
    let w := s.wordAt line ch
    if w.isEmpty then .null
    else
      match s.symbolOf w with
      | none => .null
      | some sym =>
        let line0 : Json := .num (pred32 sym.line : Nat)
        let first := object [("line", line0), ("character", .num (pred32 sym.col : Nat))]
        let last := object [("line", line0), ("character", .num (pred32 sym.col + sym.name.length : Nat))]
        object [("range", object [("start", first), ("end", last)]), ("uri", .str s.uri)]

/-- The text of a line in front of the cursor. -/
def before (line0 col0 : Nat) : Bytes :=
  match (splitSep 10 s.text)[line0]? with
  | none => []
  | some ln => ln.take col0

/-- What stands behind the last dot, if a word or nothing stands in front of it. -/
def memberFilter (before : Bytes) : Option Bytes :=
  (behindLast 46 before).bind fun filter =>
    match (before.take (before.length - filter.length - 1)).getLast? with
    | some c => if isAlnum c || c == 95 then some filter else none
    | none => some filter

def completionItem (label : Bytes) (kind : Nat) (detail : Bytes) : Json :=
  object [("label", .str label), ("kind", .num kind), ("detail", .str detail)]

def completions (params : Json) : Json :=
  match position params with
  | none => .arr []
  | some (line0, col0) =>
    match memberFilter (s.before line0 col0) with
    | some filter =>
      .arr ((s.dotSuggest.filter fun sug => filter.isPrefixOf sug.1).map fun sug =>
        completionItem sug.1 (if sug.2 = .field then 4 else 2) sug.2.text)
    | none =>
      let pre := s.wordAt line0 col0
      .arr ((s.symbols.filter fun sym => pre.isPrefixOf sym.name).map fun sym =>
        completionItem sym.name (if sym.kind = .function then 3 else if sym.kind = .struct then 7 else 6)
          sym.kind.text)

end Server

/-! ## 3. Messages -/

/-- The result of `initialize`. -/
def initializeResult : Json :=
  object [
    ("capabilities", object [
      ("textDocumentSync", object [("openClose", .bool true), ("change", .num 1)]),
      ("hoverProvider", .bool true),
      ("definitionProvider", .bool true),
      ("completionProvider", object [("triggerCharacters", .arr [.str (Str.ascii ".")])])]),
    ("serverInfo", object [("name", .str (Str.ascii "vyb-lsp")), ("version", .str (Str.ascii "0.1"))])]

/-- What a message does: the server behind it, the result that is sent back, whether the loop ends. -/
structure Outcome where
  server : Server
  result : Option Json
  exit : Bool

/-- The text of a `didOpen` or `didChange`, if it brings one. -/
def newText (isOpen : Bool) (params td : Json) : Option Bytes :=
  if isOpen then (td.member .text).map Json.s
  else
    (params.member .contentChanges).bind fun changes =>
      changes.items.getLast?.bind fun last => (last.member .text).map Json.s

/-- `didOpen` and `didChange` -/
def sync (parse : ParseFn) (s : Server) (isOpen : Bool) (req : Json) : Server :=
  match req.member .params with
  | none => s
  | some params =>
    match params.member .textDocument with
    | none => s
    | some td =>
      match td.member .uri with
      | none => s
      | some uri => Server.reindex parse { s with uri := uri.s, text := (newText isOpen params td).getD s.text }

/-- The methods that the dispatch knows. -/
inductive Method where
  | initializeRequest
  | initialized
  | shutdown
  | exit
  | didOpen
  | didChange
  | didClose
  | hover
  | definition
  | completion
  | cancelRequest
  | didSave
  deriving DecidableEq, Repr

def Method.bytes : Method → Bytes
  | .initializeRequest => Str.ascii "initialize"
  | .initialized => Str.ascii "initialized"
  | .shutdown => Str.ascii "shutdown"
  | .exit => Str.ascii "exit"
  | .didOpen => Str.ascii "textDocument/didOpen"
  | .didChange => Str.ascii "textDocument/didChange"
  | .didClose => Str.ascii "textDocument/didClose"
  | .hover => Str.ascii "textDocument/hover"
  | .definition => Str.ascii "textDocument/definition"
  | .completion => Str.ascii "textDocument/completion"
  | .cancelRequest => Str.ascii "$/cancelRequest"
  | .didSave => Str.ascii "textDocument/didSave"

/-- In the order of the comparisons. -/
def methods : List Method :=
  [.initializeRequest, .initialized, .shutdown, .exit, .didOpen, .didChange, .didClose, .hover, .definition,
    .completion, .cancelRequest, .didSave]

def methodOf (m : Bytes) : Option Method := methods.find? fun x => x.bytes == m

/-- `handleMessageDispatch`, behind the parser. The diagnostics that `didOpen` and `didChange` publish are left
out. -/
def handle (parse : ParseFn) (s : Server) (req : Json) : Outcome :=
  match req.member .method with
  | none => ⟨s, none, false⟩
  | some method =>
    let answerWith : (Json → Json) → Option Json := fun f => some (((req.member .params).map f).getD .null)
    match methodOf method.s with
    | some .initializeRequest => ⟨s, some initializeResult, false⟩
    | some .initialized => ⟨s, none, false⟩
    | some .shutdown => ⟨{ s with shuttingDown := true }, some .null, false⟩
    | some .exit => ⟨s, none, true⟩
    | some .didOpen => ⟨sync parse s true req, none, false⟩
    | some .didChange => ⟨sync parse s false req, none, false⟩
    | some .didClose => ⟨{ s with uri := [], text := [], symbols := [] }, none, false⟩
    | some .hover => ⟨s, answerWith s.hoverAt, false⟩
    | some .definition => ⟨s, answerWith s.definitionAt, false⟩
    | some .completion => ⟨s, answerWith s.completions, false⟩
    | some .cancelRequest => ⟨s, none, false⟩
    | some .didSave => ⟨s, none, false⟩
    | none => ⟨s, some .null, false⟩

/-! ## 4. Notifications and requests -/

/-- An object with members that the server reads. -/
def record (ms : List (Key × Json)) : Json := .obj (ms.map fun m => (m.1.bytes, m.2))

/-- A notification about a document; a change brings whole texts, of which the last one counts. -/
inductive Note where
  | didOpen (uri text : Bytes)
  | didChange (uri : Bytes) (changes : List Bytes)
  | didClose (uri : Bytes)

/-- A message without an id. -/
def notification (method : Method) (params : Json) : Json :=
  record [(.jsonrpc, .str (Str.ascii "2.0")), (.method, .str method.bytes), (.params, params)]

namespace Note

def message : Note → Json
  | didOpen uri text =>
    notification .didOpen (record [(.textDocument, record [(.uri, .str uri), (.text, .str text)])])
  | didChange uri changes =>
    notification .didChange (record [(.textDocument, record [(.uri, .str uri)]),
      (.contentChanges, .arr (changes.map fun t => record [(.text, .str t)]))])
  | didClose uri => notification .didClose (record [(.textDocument, record [(.uri, .str uri)])])

/-- The text that the server has behind a notification, unless it keeps the one it had. -/
def given : Note → Option Bytes
  | didOpen _ text => some text
  | didChange _ changes => changes.getLast?
  | didClose _ => some []

/-- The document that a notification opens or changes. -/
def names : Note → Option Bytes
  | didOpen uri _ => some uri
  | didChange uri _ => some uri
  | didClose _ => none

/-- The document of a notification. -/
def uri : Note → Bytes
  | didOpen uri _ => uri
  | didChange uri _ => uri
  | didClose uri => uri

/-- What a notification means for the text of the document `u`. -/
def apply (u : Bytes) (text : Option Bytes) : Note → Option Bytes
  | didOpen uri new => if uri = u then some new else text
  | didChange uri changes => if uri = u then text.map fun old => changes.getLast?.getD old else text
  | didClose uri => if uri = u then none else text

end Note

open Note

/-- The text of a document, if it is open. -/
def current (u : Bytes) (notes : List Note) : Option Bytes := notes.foldl (Note.apply u) none

/-- What a request asks for. -/
inductive Asked where
  | hover
  | definition
  | completion

def Asked.method : Asked → Method
  | .hover => .hover
  | .definition => .definition
  | .completion => .completion

/-- A request for a document and a position in it. -/
structure Query where
  asked : Asked
  id : Nat
  uri : Bytes
  line : Nat
  character : Nat

namespace Query

def params (q : Query) : Json :=
  record [(.textDocument, record [(.uri, .str q.uri)]),
    (.position, record [(.line, .num q.line), (.character, .num q.character)])]

def message (q : Query) : Json :=
  record [(.jsonrpc, .str (Str.ascii "2.0")), (.id, .num q.id), (.method, .str q.asked.method.bytes),
    (.params, q.params)]

end Query

/-- The server behind notifications. -/
def run (parse : ParseFn) (notes : List Note) : Server :=
  notes.foldl (fun s n => (handle parse s n.message).server) Server.start

/-- The result that is sent for a request behind notifications. -/
def answer (parse : ParseFn) (notes : List Note) (q : Query) : Option Json :=
  (handle parse (run parse notes) q.message).result

/-! ## 5. The state behind notifications -/

theorem Key.bytes_injective : ∀ a b : Key, a.bytes = b.bytes → a = b := by
  intro a b
  cases a <;> cases b <;> decide +kernel

variable (m : Method)

theorem methodOf_bytes : methodOf m.bytes = some m := by
  cases m <;> decide +kernel

theorem member_record (ms : List (Key × Json)) (k : Key) :
    (record ms).member k = (ms.find? fun m => m.1 == k).map Prod.snd := by
  rw [Json.member, record, Json.get]
  induction ms with
  | nil => rfl
  | cons m ms ih =>
    rw [map_cons]
    by_cases hk : m.1 = k
    · simp [hk]
    · have hbytes : m.1.bytes ≠ k.bytes := fun h => hk (Key.bytes_injective _ _ h)
      rw [find?_cons_of_neg (by simpa using hbytes), find?_cons_of_neg (by simpa using hk)]
      exact ih

variable (params : Json)

theorem member_method :
    (notification m params).member .method = some (.str m.bytes) := by
  rw [notification, member_record]
  rfl

theorem member_params :
    (notification m params).member .params = some params := by
  rw [notification, member_record]
  rfl

variable (parse : ParseFn) (s : Server)

/-- A notification that brings a document: its name is taken, and its text if there is one. -/
theorem sync_notification (isOpen : Bool) (m : Method) (uri : Bytes)
    (td rest : List (Key × Json)) :
    sync parse s isOpen
        (notification m (record ((.textDocument, record ((.uri, .str uri) :: td)) :: rest))) =
      Server.reindex parse { s with
        uri := uri
        text := (newText isOpen (record ((.textDocument, record ((.uri, .str uri) :: td)) :: rest))
          (record ((.uri, .str uri) :: td))).getD s.text } := by
  rw [sync, member_params]
  dsimp only
  rw [member_record, find?_cons_of_pos rfl, map_some]
  dsimp only
  rw [member_record, find?_cons_of_pos rfl, map_some]
  rfl

theorem newText_didOpen (uri text : Bytes) :
    newText true params (record [(.uri, .str uri), (.text, .str text)]) = some text := by
  rw [newText, if_pos rfl, member_record]
  rfl

theorem newText_didChange (td doc : Json) (changes : List Bytes) :
    newText false (record [(.textDocument, doc),
      (.contentChanges, .arr (changes.map fun t => record [(.text, .str t)]))]) td = changes.getLast? := by
  rw [newText, if_neg (by decide), member_record]
  change ((changes.map fun t => record [(.text, .str t)]).getLast?.bind fun last =>
    (last.member .text).map Json.s) = _
  rw [getLast?_map]
  cases changes.getLast? with
  | none => rfl
  | some t =>
    rw [map_some, bind_some, member_record]
    rfl

variable {u : Bytes}

/-- A `didOpen` or `didChange` puts its document in the place of the one before. -/
theorem handle_names {n : Note} (hn : n.names = some u) :
    (handle parse s n.message).server =
      Server.reindex parse { s with uri := u, text := n.given.getD s.text } := by
  cases n with
  | didOpen uri text =>
    obtain rfl : uri = u := some.inj hn
    rw [message, handle, member_method]
    dsimp only [Json.s]
    rw [methodOf_bytes]
    dsimp only
    rw [sync_notification, newText_didOpen]
    rfl
  | didChange uri changes =>
    obtain rfl : uri = u := some.inj hn
    rw [message, handle, member_method]
    dsimp only [Json.s]
    rw [methodOf_bytes]
    dsimp only
    rw [sync_notification, newText_didChange]
    rfl
  | didClose uri => cases hn

/-- A `didClose` empties the server, whatever document it names. -/
theorem handle_didClose (u : Bytes) :
    (handle parse s (Note.didClose u).message).server = { s with uri := [], text := [], symbols := [] } := by
  rw [message, handle, member_method]
  dsimp only [Json.s]
  rw [methodOf_bytes]

variable (notes : List Note)

theorem run_append (n : Note) :
    run parse (notes ++ [n]) = (handle parse (run parse notes) n.message).server := by
  rw [run, foldl_append]
  rfl

/-- The last text that was given. -/
def lastText (notes : List Note) : Option Bytes := (notes.filterMap Note.given).getLast?

/-- The document of the last notification, unless it closes one. -/
def lastNamed (notes : List Note) : Option Bytes := notes.getLast?.bind Note.names

theorem lastText_append (n : Note) :
    lastText (notes ++ [n]) = n.given.or (lastText notes) := by
  rw [lastText, filterMap_append, getLast?_append]
  cases h : n.given with
  | none => simp [lastText, h]
  | some t => simp [h]

theorem lastNamed_append (n : Note) : lastNamed (notes ++ [n]) = n.names := by
  rw [lastNamed, getLast?_append]
  rfl

theorem run_text :
    (run parse notes).text = (lastText notes).getD [] ∧ (run parse notes).shuttingDown = false := by
  induction notes using reverseRecOn with
  | nil => exact ⟨rfl, rfl⟩
  | append_singleton notes n ih =>
    rw [run_append, lastText_append]
    cases hn : n.names with
    | some u =>
      rw [handle_names parse _ hn]
      refine ⟨?_, ih.2⟩
      rw [reindex, ih.1]
      cases n.given <;> rfl
    | none =>
      cases n with
      | didClose u =>
        rw [handle_didClose]
        exact ⟨rfl, ih.2⟩
      | didOpen uri text | didChange uri changes => cases hn

variable {notes : List Note}

/-- **The state behind notifications**: the document named last, with the text given last. -/
theorem run_of_named (h : lastNamed notes = some u) :
    run parse notes = Server.reindex parse ⟨u, (lastText notes).getD [], [], [], false⟩ := by
  induction notes using reverseRecOn with
  | nil => cases h
  | append_singleton notes n ih =>
    rw [lastNamed_append] at h
    obtain ⟨htext, hdown⟩ := run_text parse notes
    rw [run_append, handle_names parse _ h, lastText_append, reindex, reindex, htext, hdown]
    cases n.given <;> rfl

theorem run_of_unnamed (h : lastNamed notes = none) : (run parse notes).symbols = [] := by
  induction notes using reverseRecOn with
  | nil => rfl
  | append_singleton notes n ih =>
    rw [lastNamed_append] at h
    cases n with
    | didClose u =>
      rw [run_append, handle_didClose]
    | didOpen uri text | didChange uri changes => cases h

/-! ## 6. Answers behind notifications -/

/-- The answer of a server to a request. -/
def Server.reply (s : Server) (q : Query) : Json :=
  match q.asked with
  | .hover => s.hoverAt q.params
  | .definition => s.definitionAt q.params
  | .completion => s.completions q.params

theorem answer_eq (q : Query) :
    answer parse notes q = some ((run parse notes).reply q) := by
  have hmethod : q.message.member .method = some (.str q.asked.method.bytes) := by
    rw [Query.message, member_record]
    rfl
  have hparams : q.message.member .params = some q.params := by
    rw [Query.message, member_record]
    rfl
  rw [answer, handle, hmethod, hparams]
  dsimp only [Json.s]
  rw [methodOf_bytes, reply]
  cases q.asked <;> rfl

theorem position_params (q : Query) : position q.params = some (q.line, q.character) := by
  have hpos : q.params.member .position =
      some (record [(.line, .num q.line), (.character, .num q.character)]) := by
    rw [Query.params, member_record]
    rfl
  rw [position, hpos, map_some, member_record, member_record]
  rfl

/-- In front of the first column the word at the cursor is completed. -/
theorem completions_first {q : Query} (hline : q.line = 0) (hch : q.character = 0) :
    s.completions q.params =
      .arr ((s.symbols.filter fun sym => (s.wordAt 0 0).isPrefixOf sym.name).map fun sym =>
        Server.completionItem sym.name (if sym.kind = .function then 3 else if sym.kind = .struct then 7 else 6)
          sym.kind.text) := by
  have hbefore : s.before 0 0 = [] := by
    rw [before]
    cases (splitSep 10 s.text)[0]? <;> rfl
  rw [completions, position_params, hline, hch]
  dsimp only
  rw [hbefore]
  rfl

/-- A parser that knows one declaration, in one document with one text. -/
def parseOnly (u t name : Bytes) : ParseFn := fun text uri =>
  if uri = u ∧ text = t then some [⟨1, 1, .function (some name) [] none⟩] else none

theorem symbols_parseOnly (u t name : Bytes) (s : Server) (h : ¬(s.uri = u ∧ s.text = t)) :
    (Server.reindex (parseOnly u t name) s).symbols = [] := by
  rw [reindex, parseOnly, if_neg h]
  rfl

theorem current_append (u : Bytes) (notes : List Note) (n : Note) :
    current u (notes ++ [n]) = n.apply u (current u notes) := by
  rw [current, foldl_append]
  rfl

theorem lastText_ne_none (h : current u notes ≠ none) : lastText notes ≠ none := by
  induction notes using reverseRecOn with
  | nil => exact absurd rfl h
  | append_singleton notes n ih =>
    rw [current_append] at h
    rw [lastText_append]
    cases n with
    | didOpen uri text | didClose uri => simp [given]
    | didChange uri changes =>
      have hbefore : current u notes ≠ none := by
        intro hnone
        rw [hnone, apply] at h
        split at h <;> exact h rfl
      rw [ne_eq, or_eq_none_iff]
      exact fun hboth => ih hbefore hboth.2

/-- With one document only, the state is that document and its text as long as it is open. -/
theorem lastNamed_of_about {t : Bytes} (habout : ∀ n ∈ notes, n.uri = u) (hopen : current u notes = some t) :
    lastNamed notes = some u ∧ lastText notes = some t := by
  induction notes using reverseRecOn generalizing t with
  | nil => cases hopen
  | append_singleton notes n ih =>
    have hn : n.uri = u := habout n (by simp)
    rw [current_append] at hopen
    rw [lastNamed_append, lastText_append]
    cases n with
    | didOpen uri text =>
      obtain rfl : uri = u := hn
      rw [apply, if_pos rfl] at hopen
      exact ⟨rfl, hopen⟩
    | didClose uri =>
      obtain rfl : uri = u := hn
      rw [apply, if_pos rfl] at hopen
      cases hopen
    | didChange uri changes =>
      obtain rfl : uri = u := hn
      rw [apply, if_pos rfl, map_eq_some_iff] at hopen
      obtain ⟨old, hold, hnew⟩ := hopen
      obtain ⟨-, hlast⟩ := ih (fun n hmem => habout n (by simp [hmem])) hold
      refine ⟨rfl, ?_⟩
      rw [hlast, given, ← hnew]
      cases changes.getLast? <;> rfl

/-- Some declaration of a document is completed, and not by a server without symbols. -/
theorem exists_completed (u t : Bytes) : ∃ name : Bytes, ∀ s : Server, s.symbols = [] →
    s.reply ⟨.completion, 0, u, 0, 0⟩ ≠
      (run (parseOnly u t name) [.didOpen u t]).reply ⟨.completion, 0, u, 0, 0⟩ := by
  let fresh : Server := ⟨u, t, [], [], false⟩
  let name := fresh.wordAt 0 0 ++ [97]
  let indexed := reindex (parseOnly u t name) fresh
  refine ⟨name, fun s hs h => ?_⟩
  have hrun : run (parseOnly u t name) [.didOpen u t] = indexed := run_of_named _ rfl
  have hsymbols : indexed.symbols =
      [⟨name, .function, 1, 1, name ++ Str.ascii "(" ++ [] ++ Str.ascii ")" ++ []⟩] := by
    change (reindex _ _).symbols = _
    rw [reindex, parseOnly, if_pos ⟨rfl, rfl⟩]
    rfl
  have hword : (indexed.wordAt 0 0).isPrefixOf name = true := by
    rw [List.isPrefixOf_iff_prefix]
    exact prefix_append (fresh.wordAt 0 0) [97]
  rw [hrun, reply, reply] at h
  dsimp only at h
  rw [completions_first _ rfl rfl, completions_first _ rfl rfl, hs, hsymbols,
    filter_cons_of_pos (by exact hword)] at h
  cases Value.arr.inj h

/-- **Answers.** For an open document the answers are those for its text alone exactly if the last notification
names the document and the text given last is its text. -/
theorem answers_iff (notes : List Note) (u t : Bytes) (hopen : current u notes = some t) :
    (∀ (parse : ParseFn) (q : Query), q.uri = u → answer parse notes q = answer parse [.didOpen u t] q) ↔
      (lastNamed notes = some u ∧ lastText notes = some t) := by
  refine ⟨fun h => ?_, fun h parse q _ => ?_⟩
  · by_contra hne
    obtain ⟨name, hname⟩ := exists_completed u t
    have hanswer := h (parseOnly u t name) ⟨.completion, 0, u, 0, 0⟩ rfl
    rw [answer_eq, answer_eq, some.injEq] at hanswer
    refine hname _ ?_ hanswer
    cases hn : lastNamed notes with
    | none => exact run_of_unnamed _ hn
    | some v =>
      rw [run_of_named _ hn]
      refine symbols_parseOnly u t name _ fun hboth => hne ⟨hn.trans (congrArg some hboth.1), ?_⟩
      obtain ⟨text, htext⟩ := ne_none_iff_exists'.mp (lastText_ne_none (hopen ▸ some_ne_none t))
      have hlast : (lastText notes).getD [] = t := hboth.2
      rw [htext, getD_some] at hlast
      rw [htext, hlast]
  · have hfresh : run parse [.didOpen u t] = reindex parse ⟨u, t, [], [], false⟩ := run_of_named parse rfl
    rw [answer_eq, answer_eq, run_of_named parse h.1, h.2, hfresh]
    rfl

theorem answers_iff_reopened :
    current [97] [.didOpen [98] [103], .didOpen [97] [102]] = some [102] ∧
      ∀ (parse : ParseFn) (q : Query), q.uri = [97] →
        answer parse [.didOpen [98] [103], .didOpen [97] [102]] q = answer parse [.didOpen [97] [102]] q :=
  have hopen : current [97] [.didOpen [98] [103], .didOpen [97] [102]] = some [102] := by decide
  ⟨hopen, (answers_iff _ _ _ hopen).2 (by decide)⟩

/-- A parser of texts that are one name: the module has one function of that name. -/
def oneFunction : ParseFn := fun text _ => some [⟨1, 1, .function (some text) [] none⟩]

/-- **One document**: the answers are those for its text alone. -/
theorem answers_of_about {t : Bytes} (habout : ∀ n ∈ notes, n.uri = u) (hopen : current u notes = some t)
    (parse : ParseFn) (q : Query) : answer parse notes q = answer parse [.didOpen u t] q := by
  obtain ⟨hnamed, htext⟩ := lastNamed_of_about habout hopen
  rw [answer_eq, answer_eq, run_of_named parse hnamed, htext, run_of_named parse rfl]
  rfl

theorem answers_of_about_changed :
    answer oneFunction [.didOpen [97] [102], .didChange [97] [[103]]] ⟨.hover, 1, [97], 0, 0⟩ =
      answer oneFunction [.didOpen [97] [103]] ⟨.hover, 1, [97], 0, 0⟩ :=
  answers_of_about (by decide) (by decide) _ _

/-- `f` is open, then `g`; the word at the start of the first document is said to be the function `g`. -/
theorem other_document_answered :
    current [97] [.didOpen [97] [102], .didOpen [98] [103]] = some [102] ∧
      answer oneFunction [.didOpen [97] [102]] ⟨.hover, 1, [97], 0, 0⟩ =
        some (object [("contents", object [("kind", .str (Str.ascii "markdown")),
          ("value", .str (Str.ascii "**function** f()" ++ [10, 10]))])]) ∧
      answer oneFunction [.didOpen [97] [102], .didOpen [98] [103]] ⟨.hover, 1, [97], 0, 0⟩ =
        some (object [("contents", object [("kind", .str (Str.ascii "markdown")),
          ("value", .str (Str.ascii "**function** g()" ++ [10, 10]))])]) := by
  refine ⟨by decide, ?_, ?_⟩
  all_goals
    rw [answer_eq, run_of_named oneFunction rfl]
    rfl

end Vyb.Lsp

/-
  Subject:   The clients and their redirects (`http_get_hops`, `https_fetch`, `https_get_hops`).

  The network is a sequence of attempts: for each hop, what the calls of the runtime return and which bytes
  arrive. A run records its hops with what was sent and what came back.

  * `chain` -- the hops as a function of the network alone; **`follow_refines`** -- both clients end, with
    these hops and with the answer of the last one;
  * **`clients_honest_iff`** -- a truncated answer is reported exactly if it has no status code: the clients
    look at no length after a read;
  * **`httpsGetHops_private_iff`** -- the caller's headers stay with the first host exactly if there are none,
    or no redirect leads away from it: they are sent along on every hop.
-/
import Vyb.Stdlib.HttpChunked
import Vyb.Stdlib.HttpLocation

namespace Vyb.Stdlib.Http

open Lib Fueled Vyb.Runtime Str Collections List

/-! ## 1. The source -/

/-- `http_is_redirect` -/
def httpIsRedirect (code : Int) : Bool :=
  code == 301 || code == 302 || code == 303 || code == 307 || code == 308

/-- `http_header`: the first value that is not empty. -/
def headerLoop (name : Str) : List Str → Str
  | [] => []
  | h :: hs => if 0 < (httpHeaderValue h name).length then httpHeaderValue h name else headerLoop name hs

def httpHeader (resp : HttpResponse) (name : Str) : Str := headerLoop name resp.headers

/-- `http_redir_max` -/
def httpRedirMax : Int := 10

/-- What the runtime does in one hop. -/
structure Attempt where
  /-- `socket_resolve(host) else ""` -/
  ip : Str
  opened : Bool
  connected : Bool
  /-- The three steps of TLS. -/
  context : Bool
  stream : Bool
  handshake : Bool
  answer : Segments UInt8

/-- What went over a connection. -/
structure Exchange where
  request : Str
  answer : Str
  deriving Repr, DecidableEq

/-- A hop, with its exchange if there was a connection. -/
structure Hop where
  target : HttpTarget
  exchange : Option Exchange
  deriving Repr, DecidableEq

structure Run where
  response : HttpResponse
  hops : List Hop
  deriving Repr, DecidableEq

/-- The request of `http_get_hops`. -/
def httpRequest (tg : HttpTarget) : Str :=
  ascii "GET " ++ tg.path ++ ascii " HTTP/1.1\r\nHost: " ++ tg.host ++ ascii "\r\nConnection: close\r\n\r\n"

/-- `https_request_head` -/
def httpsRequestHead (path host : Str) (headers : List Str) : Str :=
  (headers.foldl (fun head h => head ++ h ++ ascii "\r\n")
    (ascii "GET " ++ path ++ ascii " HTTP/1.1\r\nHost: " ++ host ++ ascii "\r\n")) ++
    ascii "Connection: close\r\n\r\n"

/-- The request is sent and the answer read. -/
def converse (T : Transport (Segments UInt8) UInt8) (a : Attempt) (request : Str) (tg : HttpTarget) :
    Fueled (HttpResponse × Hop) := do
  let resp ← readResponse T a.answer
  pure (resp, ⟨tg, some ⟨request, T.ahead a.answer⟩⟩)

/-- A hop that fails before anything is sent. -/
def fails (msg : Str) (tg : HttpTarget) : Fueled (HttpResponse × Hop) := pure (httpErr msg, ⟨tg, none⟩)

def connectFailed (a : Attempt) (tg : HttpTarget) : Str :=
  ascii "connect " ++ a.ip ++ ascii ":" ++ ofInt tg.port ++ ascii " failed"

/-- One hop of `http_get_hops`. -/
def httpHop (a : Attempt) (tg : HttpTarget) : Fueled (HttpResponse × Hop) :=
  if a.ip.length = 0 then fails (ascii "resolve failed: " ++ tg.host) tg
  else if !a.opened then fails (ascii "socket open failed") tg
  else if !a.connected then fails (connectFailed a tg) tg
  else converse socket a (httpRequest tg) tg

/-- One hop of `https_get_hops`, with `https_fetch`. -/
def httpsHop (headers : List Str) (a : Attempt) (tg : HttpTarget) : Fueled (HttpResponse × Hop) :=
  if a.ip.length = 0 then fails (ascii "resolve failed: " ++ tg.host) tg
  else if !a.context then fails (ascii "tls client context failed") tg
  else if !a.opened then fails (ascii "socket open failed") tg
  else if !a.connected then fails (connectFailed a tg) tg
  else if !a.stream then fails (ascii "tls stream failed") tg
  else if !a.handshake then fails (ascii "tls handshake failed") tg
  else converse tls a (httpsRequestHead tg.path tg.host headers) tg

/-- The target that a response leads on to: a redirect with a Location of the same scheme. -/
def redirectOf (scheme : Str) (tg : HttpTarget) (resp : HttpResponse) : Option HttpTarget :=
  let lv := httpHeader resp (ascii "location")
  if httpIsRedirect resp.status && decide (0 < lv.length) then
    let t := httpResolveLocation lv scheme tg.host tg.port tg.path
    if t.scheme = scheme then some t else none
  else none

/-- The hops from the `i`-th on, with `budget` redirects left. An error has the status -1, which is no
redirect; `http_get_hops` returns it before it looks. -/
def follow (scheme : Str) (hop : Attempt → HttpTarget → Fueled (HttpResponse × Hop)) (net : Nat → Attempt) :
    Nat → Nat → HttpTarget → Fueled Run
  | 0, i, tg => do
    let r ← hop (net i) tg
    pure ⟨r.1, [r.2]⟩
  | budget + 1, i, tg => do
    let r ← hop (net i) tg
    (redirectOf scheme tg r.1).elim (pure ⟨r.1, [r.2]⟩) fun t => do
      let later ← follow scheme hop net budget (i + 1) t
      pure ⟨later.response, r.2 :: later.hops⟩

/-- The redirects left after `hops` of them: `hops < http_redir_max()`. -/
def budgetOf (hops : Int) : Nat := (httpRedirMax - hops).toNat

/-- `http_get_hops(host, port, path, hops, scheme)` -/
def httpGetHops (net : Nat → Attempt) (tg : HttpTarget) (hops : Int) : Fueled Run :=
  follow tg.scheme httpHop net (budgetOf hops) 0 tg

/-- `https_get_hops(host, port, path, headers, ca_pem, verified, hops)` -/
def httpsGetHops (net : Nat → Attempt) (headers : List Str) (tg : HttpTarget) (hops : Int) : Fueled Run :=
  follow (ascii "https") (httpsHop headers) net (budgetOf hops) 0 tg

/-! ## 2. The chain of hops -/

def httpReaches (a : Attempt) : Bool := decide (a.ip.length ≠ 0) && a.opened && a.connected

def httpsReaches (a : Attempt) : Bool :=
  decide (a.ip.length ≠ 0) && a.context && a.opened && a.connected && a.stream && a.handshake

section Chain

variable (scheme : Str) (reaches : Attempt → Bool) (request : HttpTarget → Str) (net : Nat → Attempt)

/-- The hop to a target: an exchange, if the connection comes about. -/
def hopTo (a : Attempt) (tg : HttpTarget) : Hop :=
  ⟨tg, if reaches a then some ⟨request tg, a.answer.ahead⟩ else none⟩

/-- Where a hop leads on to. Only the first lines of an answer count. -/
def nextTarget (hop : Hop) : Option HttpTarget :=
  hop.exchange.bind fun ex => redirectOf scheme hop.target (answerOf ex.answer [])

/-- The hops of a run. -/
def chain : Nat → Nat → HttpTarget → List Hop
  | 0, i, tg => [hopTo reaches request (net i) tg]
  | budget + 1, i, tg =>
    hopTo reaches request (net i) tg ::
      (nextTarget scheme (hopTo reaches request (net i) tg)).elim [] (chain budget (i + 1))

/-- What the response says about the last hop. -/
def Reports (hop : Hop) (resp : HttpResponse) : Prop :=
  (hop.exchange = none ∧ resp.error.isSome = true) ∨
    ∃ ex body, hop.exchange = some ex ∧ resp = answerOf ex.answer body

/-- A hop of a client does what the chain says. -/
def HopRefines (hop : Attempt → HttpTarget → Fueled (HttpResponse × Hop)) : Prop :=
  ∀ a tg, ∃ resp, (hop a tg).Returns (resp, hopTo reaches request a tg) ∧
    Reports (hopTo reaches request a tg) resp ∧
    redirectOf scheme tg resp = nextTarget scheme (hopTo reaches request a tg)

variable {scheme reaches request}

/-- The body does not matter for a redirect. -/
theorem redirectOf_answerOf (tg : HttpTarget) (l body : Str) :
    redirectOf scheme tg (answerOf l body) = redirectOf scheme tg (answerOf l []) := by
  unfold answerOf
  split <;> rfl

theorem fails_refines {a : Attempt} (ha : reaches a = false) (msg : Str) (tg : HttpTarget) :
    ∃ resp, (fails msg tg).Returns (resp, hopTo reaches request a tg) ∧
      Reports (hopTo reaches request a tg) resp ∧
      redirectOf scheme tg resp = nextTarget scheme (hopTo reaches request a tg) := by
  have hhop : hopTo reaches request a tg = ⟨tg, none⟩ := by rw [hopTo, ha, if_neg Bool.false_ne_true]
  rw [hhop]
  exact ⟨httpErr msg, returns_pure.mpr rfl, .inl ⟨rfl, rfl⟩, rfl⟩

variable (request) in
theorem converse_refines {T : Transport (Segments UInt8) UInt8} (hlive : T.Live 1)
    (hahead : T.ahead = Segments.ahead) {a : Attempt} (ha : reaches a = true) (tg : HttpTarget) :
    ∃ resp, (converse T a (request tg) tg).Returns (resp, hopTo reaches request a tg) ∧
      Reports (hopTo reaches request a tg) resp ∧
      redirectOf scheme tg resp = nextTarget scheme (hopTo reaches request a tg) := by
  have hhop : hopTo reaches request a tg = ⟨tg, some ⟨request tg, a.answer.ahead⟩⟩ := by
    rw [hopTo, ha, if_pos rfl]
  obtain ⟨body, hread⟩ := readResponse_spec hlive a.answer
  rw [hahead] at hread
  rw [hhop]
  refine ⟨_, returns_bind.mpr ⟨_, hread, returns_pure.mpr (by rw [hahead])⟩, .inr ⟨_, body, rfl, rfl⟩, ?_⟩
  exact redirectOf_answerOf tg a.answer.ahead body

/-- **A client ends**, with the hops of the chain and the answer of the last. -/
theorem follow_refines {hop : Attempt → HttpTarget → Fueled (HttpResponse × Hop)}
    (hhop : HopRefines scheme reaches request hop) : ∀ (budget i : Nat) (tg : HttpTarget),
    ∃ run, (follow scheme hop net budget i tg).Returns run ∧
      run.hops = chain scheme reaches request net budget i tg ∧
      ∃ last, run.hops.getLast? = some last ∧ Reports last run.response
  | 0, i, tg => by
    obtain ⟨resp, hret, hrep, -⟩ := hhop (net i) tg
    exact ⟨⟨resp, [hopTo reaches request (net i) tg]⟩, returns_bind.mpr ⟨_, hret, returns_pure.mpr rfl⟩, rfl,
      _, rfl, hrep⟩
  | budget + 1, i, tg => by
    obtain ⟨resp, hret, hrep, hnext⟩ := hhop (net i) tg
    cases ht : nextTarget scheme (hopTo reaches request (net i) tg) with
    | none =>
      refine ⟨⟨resp, [hopTo reaches request (net i) tg]⟩, returns_bind.mpr ⟨_, hret, ?_⟩, ?_, _, rfl, hrep⟩
      · rw [hnext, ht]
        exact returns_pure.mpr rfl
      · rw [chain, ht]
        rfl
    | some t =>
      obtain ⟨later, hlater, hhops, last, hlast, hlrep⟩ := follow_refines hhop budget (i + 1) t
      refine ⟨⟨later.response, hopTo reaches request (net i) tg :: later.hops⟩,
        returns_bind.mpr ⟨_, hret, ?_⟩, ?_, last, ?_, hlrep⟩
      · rw [hnext, ht]
        exact returns_bind.mpr ⟨later, hlater, returns_pure.mpr rfl⟩
      · rw [chain, ht, hhops]
        rfl
      · rw [getLast?_cons, hlast]
        rfl

end Chain

theorem httpHop_refines (scheme : Str) : HopRefines scheme httpReaches httpRequest httpHop := by
  intro a tg
  rw [httpHop]
  split_ifs with hip hopen hconn
  · exact fails_refines (by simp [httpReaches, hip]) _ tg
  · exact fails_refines (by simp_all [httpReaches]) _ tg
  · exact fails_refines (by simp_all [httpReaches]) _ tg
  · exact converse_refines httpRequest (socket_live (by decide)) rfl (by simp_all [httpReaches]) tg

/-- What `https_get_hops` asks a target for. -/
def httpsRequest (headers : List Str) (tg : HttpTarget) : Str := httpsRequestHead tg.path tg.host headers

theorem httpsHop_refines (headers : List Str) :
    HopRefines (ascii "https") httpsReaches (httpsRequest headers) (httpsHop headers) := by
  intro a tg
  rw [httpsHop]
  split_ifs with hip hctx hopen hconn hstream hshake
  · exact fails_refines (by simp [httpsReaches, hip]) _ tg
  iterate 5 exact fails_refines (by simp_all [httpsReaches]) _ tg
  · exact converse_refines (httpsRequest headers) (tls_live (by decide) (by decide)) rfl
      (by simp_all [httpsReaches]) tg

/-- The hops of the two clients. -/
def httpChain (net : Nat → Attempt) (tg : HttpTarget) (hops : Int) : List Hop :=
  chain tg.scheme httpReaches httpRequest net (budgetOf hops) 0 tg

def httpsChain (net : Nat → Attempt) (headers : List Str) (tg : HttpTarget) (hops : Int) : List Hop :=
  chain (ascii "https") httpsReaches (httpsRequest headers) net (budgetOf hops) 0 tg

/-! ## 3. Truncated answers -/

/-- Of an answer `b` the header lines `hs` have arrived, and `body` behind the empty line; none of the body as
long as that line has not. -/
def Received (b : Str) (hs : List Str) (body : Str) : Prop :=
  ∃ status, ¬ crlf <:+: status ∧ (∀ h ∈ hs, h ≠ [] ∧ ¬ crlf <:+: h) ∧
    (b = status ++ crlf ++ (blockText hs ++ body) ∨
      body = [] ∧ ∃ part, ¬ crlf <:+: part ∧ b = status ++ crlf ++ ((hs.flatMap fun l => l ++ crlf) ++ part))

/-- The header announces a chunked body, -/
def AnnouncesChunked (hs : List Str) : Prop :=
  ∃ h ∈ hs, ascii "chunked" <:+: toLower (httpHeaderValue h (ascii "transfer-encoding"))

/-- or one of `n` bytes. -/
def AnnouncesLength (hs : List Str) (n : Nat) : Prop :=
  ∃ h ∈ hs, httpHeaderValue h (ascii "content-length") ≠ [] ∧
    (∀ b ∈ httpHeaderValue h (ascii "content-length"), (decValue b).isSome = true) ∧
    numeral 10 decValue (httpHeaderValue h (ascii "content-length")) = n

/-- The last chunk of a body has arrived. -/
def Arrived (body : Str) : Prop :=
  ∃ (chunks : List WireChunk) (last : LastChunk) (rest : Str),
    body = chunks.flatMap WireChunk.text ++ (last.line.text ++ crlf ++ rest)

/-- **The answer ended too early.** -/
def Truncated (b : Str) : Prop :=
  ∃ hs body, Received b hs body ∧
    (AnnouncesChunked hs ∧ ¬ Arrived body ∨
      ¬ AnnouncesChunked hs ∧ ∃ n, AnnouncesLength hs n ∧ body.length < n)

/-- A truncated answer is not returned as a success. -/
def Honest (run : Run) : Prop :=
  ∀ last, run.hops.getLast? = some last → ∀ ex, last.exchange = some ex → Truncated ex.answer →
    run.response.error.isSome = true

/-- The answer of the last hop is whole, or has no status code. -/
def EndsWhole (hops : List Hop) : Prop :=
  ∀ last, hops.getLast? = some last → ∀ ex, last.exchange = some ex →
    ¬ Truncated ex.answer ∨ httpStatusCode (lineOf ex.answer).1 < 0

theorem answerOf_error_iff (l body : Str) :
    (answerOf l body).error.isSome = true ↔ httpStatusCode (lineOf l).1 < 0 := by
  rw [answerOf]
  split
  · rename_i hcode
    exact iff_of_true rfl hcode
  · rename_i hcode
    exact iff_of_false Bool.false_ne_true hcode

theorem honest_iff {run : Run} {last : Hop} (hlast : run.hops.getLast? = some last)
    (hrep : Reports last run.response) : Honest run ↔ EndsWhole run.hops := by
  have hone : ∀ {P : Hop → Prop}, (∀ other, run.hops.getLast? = some other → P other) ↔ P last := by
    intro P
    rw [hlast]
    exact ⟨fun h => h last rfl, fun h other ho => Option.some.inj ho ▸ h⟩
  rw [Honest, EndsWhole, hone, hone]
  rcases hrep with ⟨hnone, -⟩ | ⟨ex, body, hex, hresp⟩
  · -- nothing was exchanged on the last hop
    simp [hnone]
  · have herror := answerOf_error_iff ex.answer body
    rw [← hresp] at herror
    simp only [hex, Option.some.injEq, forall_eq', herror]
    exact imp_iff_not_or

/-- **What the clients make of truncated answers**: they end on every network, and do not pass a truncated
answer off as a whole one exactly if the last answer is whole, or has no status code. -/
theorem clients_honest_iff (net : Nat → Attempt) (headers : List Str) (tg : HttpTarget) (hops : Int) :
    (∃ run, (httpGetHops net tg hops).Returns run ∧ (Honest run ↔ EndsWhole (httpChain net tg hops))) ∧
      ∃ run, (httpsGetHops net headers tg hops).Returns run ∧
        (Honest run ↔ EndsWhole (httpsChain net headers tg hops)) := by
  constructor
  · obtain ⟨run, hret, hhops, last, hlast, hrep⟩ :=
      follow_refines net (httpHop_refines tg.scheme) (budgetOf hops) 0 tg
    exact ⟨run, hret, by rw [honest_iff hlast hrep, hhops]; rfl⟩
  · obtain ⟨run, hret, hhops, last, hlast, hrep⟩ :=
      follow_refines net (httpsHop_refines headers) (budgetOf hops) 0 tg
    exact ⟨run, hret, by rw [honest_iff hlast hrep, hhops]; rfl⟩

/-- Before a last chunk there is a line with a number, and as many bytes if it is not zero. -/
theorem Arrived.first_line {body : Str} (h : Arrived body) :
    httpParseHex (lineOf body).1 = 0 ∨ httpParseHex (lineOf body).1 < (lineOf body).2.length := by
  obtain ⟨chunks, last, rest, rfl⟩ := h
  cases chunks with
  | nil =>
    left
    have hline : lineOf ([] ++ (last.line.text ++ crlf ++ rest)) = (last.line.text, rest) :=
      lineOf_append rest last.line.text_line
    rw [flatMap_nil, hline, last.line.parse_text (by rw [last.size_zero]; decide), last.size_zero]
    rfl
  | cons c chunks =>
    right
    have hbody : (c :: chunks).flatMap WireChunk.text ++ (last.line.text ++ crlf ++ rest) =
        c.line.text ++ crlf ++
          (c.data ++ (crlf ++ (chunks.flatMap WireChunk.text ++ (last.line.text ++ crlf ++ rest)))) := by
      rw [flatMap_cons, WireChunk.text]
      simp only [append_assoc]
    rw [hbody, lineOf_append _ c.line.text_line, c.line.parse_text (by rw [c.size_eq]; exact c.data_fits),
      c.size_eq]
    simp only [length_append, crlf, length_cons]
    omega

/-- An attempt that gets through. -/
def reached (answer : Str) (h : answer ≠ []) : Attempt where
  ip := ascii "192.0.2.1"
  opened := true
  connected := true
  context := true
  stream := true
  handshake := true
  answer := ⟨[answer], by simpa using h⟩

def cutLength : Str := ascii "HTTP/1.1 200 OK\r\nContent-Length: 10\r\n\r\nabc"

def cutChunk : Str := ascii "HTTP/1.1 200 OK\r\nTransfer-Encoding: chunked\r\n\r\n5\r\nabc"

/-- Three of ten announced bytes, and three of a chunk of five: both are returned as the body of a success. -/
theorem truncated_success :
    (httpGetHops (fun _ => reached cutLength (by decide))
          ⟨ascii "http", ascii "a.example", 80, ascii "/"⟩ 0).Returns
        ⟨⟨200, ascii "OK", [ascii "Content-Length: 10"], ascii "abc", none⟩,
          [⟨⟨ascii "http", ascii "a.example", 80, ascii "/"⟩,
            some ⟨ascii "GET / HTTP/1.1\r\nHost: a.example\r\nConnection: close\r\n\r\n", cutLength⟩⟩]⟩ ∧
      Truncated cutLength ∧
      (httpsGetHops (fun _ => reached cutChunk (by decide)) []
          ⟨ascii "https", ascii "a.example", 443, ascii "/"⟩ 0).Returns
        ⟨⟨200, ascii "OK", [ascii "Transfer-Encoding: chunked"], ascii "abc", none⟩,
          [⟨⟨ascii "https", ascii "a.example", 443, ascii "/"⟩,
            some ⟨ascii "GET / HTTP/1.1\r\nHost: a.example\r\nConnection: close\r\n\r\n", cutChunk⟩⟩]⟩ ∧
      Truncated cutChunk := by
  refine ⟨⟨80, by decide +kernel⟩, ?_, ⟨80, by decide +kernel⟩, ?_⟩
  · refine ⟨[ascii "Content-Length: 10"], ascii "abc",
      ⟨ascii "HTTP/1.1 200 OK", by decide +kernel, by decide +kernel, .inl (by decide +kernel)⟩,
      .inr ⟨?_, 10, ⟨_, mem_singleton_self _, by decide +kernel, by decide +kernel, by decide +kernel⟩,
        by decide +kernel⟩⟩
    rintro ⟨h, hh, hin⟩
    rw [mem_singleton.mp hh] at hin
    exact absurd hin (by decide +kernel)
  · refine ⟨[ascii "Transfer-Encoding: chunked"], ascii "5\r\nabc",
      ⟨ascii "HTTP/1.1 200 OK", by decide +kernel, by decide +kernel, .inl (by decide +kernel)⟩,
      .inl ⟨⟨_, mem_singleton_self _, by decide +kernel⟩, fun h => ?_⟩⟩
    exact absurd h.first_line (by decide +kernel)

/-! ## 4. The caller's headers -/

/-- The host and the port of a target are those of another. -/
def SameSite (a b : HttpTarget) : Prop := httpKeyEq a.host b.host = true ∧ a.port = b.port

/-- To every other site goes what would be sent without the caller's headers. -/
def Private (tg : HttpTarget) (run : Run) : Prop :=
  ∀ hop ∈ run.hops, ∀ ex, hop.exchange = some ex → ¬ SameSite tg hop.target →
    ex.request = httpsRequestHead hop.target.path hop.target.host []

theorem length_foldl_head : ∀ (headers : List Str) (head : Str),
    head.length + 2 * headers.length ≤
      (headers.foldl (fun head h => head ++ h ++ ascii "\r\n") head).length
  | [], head => le_refl _
  | h :: headers, head => by
    have ih := length_foldl_head headers (head ++ h ++ ascii "\r\n")
    have htwo : (ascii "\r\n").length = 2 := rfl
    simp only [length_append, htwo] at ih
    rw [foldl_cons, length_cons]
    omega

/-- Headers show in a request. -/
theorem requestHead_eq_iff {path host : Str} {headers : List Str} :
    httpsRequestHead path host headers = httpsRequestHead path host [] ↔ headers = [] := by
  refine ⟨fun h => ?_, fun h => by rw [h]⟩
  have heq := congrArg List.length (append_cancel_right h)
  have hle := length_foldl_head headers
    (ascii "GET " ++ path ++ ascii " HTTP/1.1\r\nHost: " ++ host ++ ascii "\r\n")
  rw [heq, foldl_nil] at hle
  exact length_eq_zero_iff.mp (by omega)

/-- Every request of a chain is the one for its target. -/
theorem chain_request {scheme : Str} {reaches : Attempt → Bool} {request : HttpTarget → Str}
    {net : Nat → Attempt} : ∀ {budget i : Nat} {tg : HttpTarget} {hop : Hop},
    hop ∈ chain scheme reaches request net budget i tg → ∀ ex, hop.exchange = some ex →
      ex.request = request hop.target := by
  have hfirst : ∀ {i : Nat} {tg : HttpTarget} {ex : Exchange},
      (hopTo reaches request (net i) tg).exchange = some ex → ex.request = request tg := by
    intro i tg ex hex
    rw [hopTo] at hex
    split at hex
    · rw [← Option.some.inj hex]
    · cases hex
  intro budget
  induction budget with
  | zero =>
    intro i tg hop hmem ex hex
    rw [chain, mem_singleton] at hmem
    subst hmem
    exact hfirst hex
  | succ budget ih =>
    intro i tg hop hmem ex hex
    rw [chain, mem_cons] at hmem
    rcases hmem with rfl | hmem
    · exact hfirst hex
    · cases ht : nextTarget scheme (hopTo reaches request (net i) tg) with
      | none =>
        rw [ht] at hmem
        cases hmem
      | some t =>
        rw [ht] at hmem
        exact ih hmem ex hex

/-- **Where the caller's headers go**: the client ends on every network, and they are sent to the host and port
of the original request only exactly if there are none, or every hop that sends something goes there. -/
theorem httpsGetHops_private_iff (net : Nat → Attempt) (headers : List Str) (tg : HttpTarget) (hops : Int) :
    ∃ run, (httpsGetHops net headers tg hops).Returns run ∧
      (Private tg run ↔ headers = [] ∨
        ∀ hop ∈ httpsChain net headers tg hops, hop.exchange ≠ none → SameSite tg hop.target) := by
  obtain ⟨run, hret, hhops, -⟩ := follow_refines net (httpsHop_refines headers) (budgetOf hops) 0 tg
  have hchain : run.hops = httpsChain net headers tg hops := hhops
  refine ⟨run, hret, ?_⟩
  rw [Private, hchain]
  constructor
  · intro h
    by_cases hnil : headers = []
    · exact .inl hnil
    · refine .inr fun hop hmem hne => ?_
      obtain ⟨ex, hex⟩ := Option.ne_none_iff_exists'.mp hne
      by_contra hother
      have hplain := h hop hmem ex hex hother
      rw [chain_request hmem ex hex] at hplain
      exact hnil (requestHead_eq_iff.mp hplain)
  · rintro (rfl | hsame) hop hmem ex hex hother
    · exact chain_request hmem ex hex
    · exact absurd (hsame hop hmem (by rw [hex]; exact Option.some_ne_none ex)) hother

def movedAnswer : Str := ascii "HTTP/1.1 302 \r\nLocation: https://b.example/\r\n\r\n"

def plainAnswer : Str := ascii "HTTP/1.1 200 OK\r\n\r\n"

/-- A host that sends the client elsewhere, and the host there. -/
def movingNet (i : Nat) : Attempt :=
  if i = 0 then reached movedAnswer (by decide) else reached plainAnswer (by decide)

def movedRun : Run :=
  ⟨⟨200, ascii "OK", [], [], none⟩,
    [⟨⟨ascii "https", ascii "a.example", 443, ascii "/"⟩,
      some ⟨ascii "GET / HTTP/1.1\r\nHost: a.example\r\nAuthorization: Bearer t\r\nConnection: close\r\n\r\n",
        movedAnswer⟩⟩,
    ⟨⟨ascii "https", ascii "b.example", 443, ascii "/"⟩,
      some ⟨ascii "GET / HTTP/1.1\r\nHost: b.example\r\nAuthorization: Bearer t\r\nConnection: close\r\n\r\n",
        plainAnswer⟩⟩]⟩

/-- A redirect to another host takes the caller's token along. -/
theorem token_sent_away :
    (httpsGetHops movingNet [ascii "Authorization: Bearer t"]
        ⟨ascii "https", ascii "a.example", 443, ascii "/"⟩ 0).Returns movedRun ∧
      ¬ Private ⟨ascii "https", ascii "a.example", 443, ascii "/"⟩ movedRun := by
  refine ⟨⟨80, by decide +kernel⟩, fun h => ?_⟩
  have hplain := h _ (mem_cons_of_mem _ mem_cons_self) _ rfl (by unfold SameSite; decide +kernel)
  exact absurd hplain (by decide +kernel)

end Vyb.Stdlib.Http

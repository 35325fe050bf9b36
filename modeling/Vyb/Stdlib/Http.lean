/-
  Subject:   What the HTTP clients read (`stdlib/http/mod.vyb`, `stdlib/https/mod.vyb`).

  The readers of the two clients are the same loops over another `recv`; here they are written once, for
  any transport. A socket yields what has arrived; a TLS stream passes the size it is asked for on as a
  C `int`, so that it can fail for a large one.

  * **`readLine_realises`** -- however the bytes arrive, a line is what stands before the first CRLF;
  * `untilBlank_realises` -- the lines up to the first empty one: headers, and the trailer of a body;
  * `readExact_realises`, `readExact_consumes`, `readAll_consumes`, `readChunked_consumes` -- the bodies;
  * `readResponse_spec` -- what a whole response says, but for its body, is in its first lines.
-/
import Vyb.Collections.HashMap
import Vyb.Lib.Numeral
import Vyb.Lib.Search
import Vyb.Lib.Stream
import Vyb.Stdlib.StringOps

namespace Vyb.Stdlib.Http

open Lib Fueled Vyb.Runtime Str Collections List Nat Int

/-! ## 1. Texts -/

def crlf : Str := [13, 10]

/-- `http_index_of` -/
def httpIndexOf (s needle : Str) : Int :=
  if needle.length = 0 then 0 else indexLoop s needle (s.length + 1) 0

/-- `if (c >= 65 && c <= 90) { c = c + 32 }` -/
def lowerCode (c : Nat) : Nat := if 65 ≤ c ∧ c ≤ 90 then c + 32 else c

/-- `http_key_eq` -/
def httpKeyEq (a b : Str) : Bool :=
  a.length == b.length &&
    (List.range a.length).all fun i => lowerCode (charAt a i) == lowerCode (charAt b i)

/-- `s.to_lower()` -/
def toLower (s : Str) : Str := s.map fun b => UInt8.ofNat (lowerCode b.toNat)

def decValue (b : UInt8) : Option Nat :=
  if b.toNat < 48 ∨ 57 < b.toNat then none else some (b.toNat - 48)

def hexValue (b : UInt8) : Option Nat :=
  if 48 ≤ b.toNat ∧ b.toNat ≤ 57 then some (b.toNat - 48)
  else if 97 ≤ b.toNat ∧ b.toNat ≤ 102 then some (b.toNat - 97 + 10)
  else if 65 ≤ b.toNat ∧ b.toNat ≤ 70 then some (b.toNat - 65 + 10)
  else none

/-- `http_parse_int` -/
def httpParseInt (s : Str) : Int := numeralWrapped 10 decValue wrap64 0 s

/-- `http_parse_hex` -/
def httpParseHex (s : Str) : Int := numeralWrapped 16 hexValue wrap64 0 s

/-- `http_status_code` -/
def httpStatusCode (line : Str) : Int :=
  let sp := httpIndexOf line (ascii " ")
  if sp < 0 then -1 else httpParseInt (line.substring (sp + 1) line.length)

/-- `http_header_value` -/
def httpHeaderValue (header name : Str) : Str :=
  let c := httpIndexOf header (ascii ":")
  if c < 0 then []
  else if !httpKeyEq (header.substring 0 c).trim name then []
  else (header.substring (c + 1) header.length).trim

theorem wrap64_step (v b d : Int) : wrap64 (wrap64 v * b + d) = wrap64 (v * b + d) := by
  rw [wrap64, wrap64, wrap64, ← bmod_add_bmod (x := v.bmod (2 ^ 64) * b), bmod_mul_bmod, bmod_add_bmod]

/-- Numbers are read modulo 2^64. -/
theorem httpParseHex_eq (s : Str) : httpParseHex s = wrap64 (numeral 16 hexValue s) :=
  numeralWrapped_eq wrap64_step s 0

theorem httpParseInt_eq (s : Str) : httpParseInt s = wrap64 (numeral 10 decValue s) :=
  numeralWrapped_eq wrap64_step s 0

/-! ## 2. Transports -/

/-- `socket_recv(fd, n) else ""`; the clients ask for a positive number of bytes only. -/
def socket : Transport (Segments UInt8) UInt8 := segmented UInt8

/-- The size that `SSL_read` is given: `(int)maxlen`. -/
def cInt (n : Nat) : Int := (n : Int).bmod (2 ^ 32)

/-- `tls_read(s, n) else ""`: a size that is not positive as an `int` is an error. -/
def tlsRecv (n : Nat) (s : Segments UInt8) : Str × Segments UInt8 :=
  if cInt n ≤ 0 then ([], s) else s.recv (cInt n).toNat

theorem bmod_toNat_le (n m : Nat) : ((n : Int).bmod m).toNat ≤ n := by
  have hle : n % m ≤ n := mod_le n m
  rw [bmod_def, ← natCast_mod]
  split <;> omega

def tls : Transport (Segments UInt8) UInt8 where
  recv := tlsRecv
  ahead := Segments.ahead
  recv_append n s := by
    rw [tlsRecv]
    split
    · rfl
    · exact socket.recv_append (cInt n).toNat s
  length_recv n s := by
    rw [tlsRecv]
    split
    · exact zero_le n
    · exact (socket.length_recv (cInt n).toNat s).trans (bmod_toNat_le n _)

variable {n : Nat}

theorem socket_live (hn : 0 < n) : socket.Live n := segmented_live UInt8 hn

/-- A TLS stream yields something for a size that is an `int`. -/
theorem tls_live (hn : 0 < n) (h : n < 2 ^ 31) : tls.Live n := by
  intro s hs
  have hint : cInt n = n := bmod_eq_of_le (by omega) (by omega)
  have hrecv : tlsRecv n s = s.recv n := by
    rw [tlsRecv, hint, if_neg (by omega), toNat_natCast]
  have hsocket : (s.recv n).1 ≠ [] := socket_live hn s hs
  rw [← hrecv] at hsocket
  exact hsocket

/-! ## 3. The readers -/

section Readers

variable {σ : Type} (T : Transport σ UInt8)

/-- One round of `read_line`. -/
def lineRound (x : Str × σ) : Fueled ((Str × σ) ⊕ (Str × σ)) :=
  let chunk := T.recv 1 x.2
  if chunk.1.length = 0 then pure (.inr (x.1, chunk.2))
  else
    let buf := x.1 ++ chunk.1
    let idx := indexOf buf crlf
    if 0 ≤ idx then pure (.inr (buf.substring 0 idx, chunk.2)) else pure (.inl (buf, chunk.2))

def readLine (s : σ) : Fueled (Str × σ) := loop (lineRound T) ([], s)

/-- One round of a loop that reads until it has `limit` bytes, or nothing comes. -/
def fillRound (limit : Int) (ask : Str → Nat) (x : Str × σ) : Fueled ((Str × σ) ⊕ (Str × σ)) :=
  if x.1.length < limit then
    let chunk := T.recv (ask x.1) x.2
    if chunk.1.length = 0 then pure (.inr (x.1, chunk.2)) else pure (.inl (x.1 ++ chunk.1, chunk.2))
  else pure (.inr x)

/-- `read_exact` asks for what is missing, -/
def readExact (length : Int) (s : σ) : Fueled (Str × σ) :=
  loop (fillRound T length fun buf => (length - buf.length).toNat) ([], s)

/-- `read_all` for 1024 bytes each time. -/
def readAll (max : Int) (s : σ) : Fueled (Str × σ) := loop (fillRound T max fun _ => 1024) ([], s)

/-- One round of `while (h.len() > 0) { …; h = read_line(fd) }`. -/
def blankRound {β : Type} (add : β → Str → β) (x : β × Str × σ) : Fueled ((β × Str × σ) ⊕ (β × σ)) :=
  if 0 < x.2.1.length then do
    let line ← readLine T x.2.2
    pure (.inl (add x.1 x.2.1, line))
  else pure (.inr (x.1, x.2.2))

/-- The lines up to the first empty one, each added to `b`. -/
def untilBlank {β : Type} (add : β → Str → β) (b : β) (s : σ) : Fueled (β × σ) := do
  let line ← readLine T s
  loop (blankRound T add) (b, line)

/-- One round of `read_chunked`. -/
def chunkedRound (x : Str × σ) : Fueled ((Str × σ) ⊕ (Str × σ)) := do
  let hdr ← readLine T x.2
  let size := httpParseHex hdr.1
  if size ≤ 0 ∨ hdr.1.length = 0 then do
    -- the trailer is read and dropped
    let trailer ← untilBlank T (fun u _ => u) () hdr.2
    pure (.inr (x.1, trailer.2))
  else do
    let data ← readExact T size hdr.2
    let stop ← readExact T 2 data.2
    pure (.inl (x.1 ++ data.1, stop.2))

def readChunked (s : σ) : Fueled (Str × σ) := loop (chunkedRound T) ([], s)

/-- `HttpResponse` -/
structure HttpResponse where
  status : Int
  reason : Str
  headers : List Str
  body : Str
  error : Option Str
  deriving Repr, DecidableEq

/-- `http_err` -/
def httpErr (msg : Str) : HttpResponse where
  status := -1
  reason := []
  headers := []
  body := []
  error := some msg

/-- What the header loop keeps. -/
structure Head where
  headers : List Str := []
  length : Int := -1
  hasLen : Bool := false
  chunked : Bool := false
  deriving Repr, DecidableEq

/-- One header line. -/
def Head.add (head : Head) (h : Str) : Head :=
  let lv := httpHeaderValue h (ascii "content-length")
  let te := httpHeaderValue h (ascii "transfer-encoding")
  { headers := head.headers ++ [h]
    length := if 0 < lv.length then httpParseInt lv else head.length
    hasLen := head.hasLen || decide (0 < lv.length)
    chunked := head.chunked || decide (0 ≤ httpIndexOf (toLower te) (ascii "chunked")) }

def readBody (head : Head) (s : σ) : Fueled (Str × σ) :=
  if head.chunked then readChunked T s
  else if head.hasLen then readExact T head.length s
  else readAll T 65536 s

/-- What stands behind the second blank of the status line. -/
def reasonOf (line : Str) : Str :=
  let sp := httpIndexOf line (ascii " ")
  if 0 ≤ sp then
    let rest := line.substring (sp + 1) line.length
    let sp2 := httpIndexOf rest (ascii " ")
    if 0 ≤ sp2 then rest.substring (sp2 + 1) rest.length else []
  else []

/-- From the status line to the body: what `http_get_hops` and `https_fetch` do once the request is sent. -/
def readResponse (s : σ) : Fueled HttpResponse := do
  let line ← readLine T s
  let code := httpStatusCode line.1
  if code < 0 then pure (httpErr (ascii "bad response: no status line"))
  else do
    let head ← untilBlank T Head.add {} line.2
    let body ← readBody T head.1 head.2
    pure { status := code, reason := reasonOf line.1, headers := head.1.headers, body := body.1, error := none }

/-! ## 4. What the readers do to the bytes ahead -/

/-- A line, and what stands behind it. -/
def lineOf (l : Str) : Str × Str := cutPair 13 10 l

/-- At most `n` lines, up to the first empty one. -/
def linesOf : Nat → Str → List Str × Str
  | 0, l => ([], l)
  | n + 1, l =>
    if (lineOf l).1 = [] then ([], (lineOf l).2)
    else ((lineOf l).1 :: (linesOf n (lineOf l).2).1, (linesOf n (lineOf l).2).2)

/-- The lines up to the first empty one, and what stands behind that. -/
def blockOf (l : Str) : List Str × Str := linesOf (l.length + 1) l

variable {T} {l : Str}

theorem lineOf_length_lt (h : (lineOf l).1 ≠ []) : (lineOf l).2.length < l.length := by
  refine cutPair_length_lt ?_
  rintro rfl
  exact h rfl

variable {s : σ}

theorem recv_one (hlive : T.Live 1) {b : UInt8} (h : T.ahead s = b :: l) :
    (T.recv 1 s).1 = [b] ∧ T.ahead (T.recv 1 s).2 = l := by
  have hne : (T.recv 1 s).1 ≠ [] := hlive s (by rw [h]; exact cons_ne_nil b l)
  have hlen : (T.recv 1 s).1.length = 1 := by
    have hle := T.length_recv 1 s
    have hpos := length_pos_iff.mpr hne
    omega
  have htake := T.recv_eq_take 1 s
  have hdrop := T.ahead_recv 1 s
  rw [hlen, h] at htake hdrop
  exact ⟨htake, hdrop⟩

theorem recv_nil (h : T.ahead s = []) : (T.recv n s).1 = [] ∧ T.ahead (T.recv n s).2 = [] :=
  append_eq_nil_iff.mp ((T.recv_append n s).trans h)

/-- A byte more can complete a CRLF only at the end. -/
theorem crlf_of_snoc {buf : Str} {b : UInt8} (hbuf : ¬ crlf <:+: buf) (h : crlf <:+: buf ++ [b]) :
    ∃ a, buf = a ++ [13] ∧ b = 10 := by
  obtain ⟨a, c, hac⟩ := h
  rcases eq_nil_or_concat c with rfl | ⟨c, x, rfl⟩
  · have hsnoc : (a ++ [13]) ++ [10] = buf ++ [b] := by simpa [crlf] using hac
    obtain ⟨hinit, hlast⟩ := append_inj' hsnoc rfl
    exact ⟨a, hinit.symm, by simpa using hlast.symm⟩
  · refine absurd ⟨a, c, ?_⟩ hbuf
    have hsnoc : (a ++ crlf ++ c) ++ [x] = buf ++ [b] := by simpa using hac
    exact (append_inj' hsnoc rfl).1

theorem indexOf_crlf {a : Str} (h : ¬ crlf <:+: a ++ [13]) : indexOf (a ++ [13] ++ [10]) crlf = a.length := by
  have hcrlf : a ++ [13] ++ [10] = a ++ crlf := by simp [crlf]
  rcases @indexOf_cases (a ++ [13] ++ [10]) crlf (by decide) with ⟨-, hno⟩ | ⟨a', b', hs, hidx, hmin⟩
  · exact absurd ⟨a, [], by rw [hcrlf, append_nil]⟩ hno
  · have hle : a'.length ≤ a.length := hmin a [] (by rw [hcrlf, append_nil])
    have hlen := congrArg List.length hs
    simp only [length_append, crlf, length_cons, length_nil] at hlen
    rcases eq_nil_or_concat b' with rfl | ⟨c, x, rfl⟩
    · rw [hidx]
      simp only [length_nil] at hlen
      omega
    · -- an occurrence further to the front would be one in `a ++ [13]`
      refine absurd ⟨a', c, ?_⟩ h
      have hsnoc : (a' ++ crlf ++ c) ++ [x] = (a ++ [13]) ++ [10] := by rw [hs]; simp
      exact (append_inj' hsnoc rfl).1

/-- The loop of `read_line`, with `buf` read already. -/
theorem lineLoop (hlive : T.Live 1) : ∀ {l : Str} (buf : Str) {s : σ}, T.ahead s = l → ¬ crlf <:+: buf →
    ∃ s', (loop (lineRound T) (buf, s)).Returns ((lineOf (buf ++ l)).1, s') ∧
      T.ahead s' = (lineOf (buf ++ l)).2
  | [], buf, s, hs, hbuf => by
    obtain ⟨hchunk, hahead⟩ := recv_nil (n := 1) hs
    refine ⟨(T.recv 1 s).2, loop_returns_of_exit ?_, ?_⟩
    · rw [append_nil, lineOf, cutPair_of_not_infix hbuf, lineRound]
      simp [hchunk]
    · rw [append_nil, lineOf, cutPair_of_not_infix hbuf, hahead]
  | b :: l, buf, s, hs, hbuf => by
    obtain ⟨hchunk, hahead⟩ := recv_one hlive hs
    by_cases hin : crlf <:+: buf ++ [b]
    · obtain ⟨a, rfl, rfl⟩ := crlf_of_snoc hbuf hin
      have hline : lineOf (a ++ [13] ++ 10 :: l) = (a, l) := by
        rw [lineOf, append_assoc]
        exact cutPair_append hbuf
      refine ⟨(T.recv 1 s).2, loop_returns_of_exit ?_, by rw [hline, hahead]⟩
      rw [hline, lineRound]
      simp only [hchunk, length_singleton, one_ne_zero, if_false, indexOf_crlf hbuf,
        natCast_nonneg, if_true, returns_pure]
      rw [substring_from_start (by simp), append_assoc, take_left]
    · obtain ⟨s', hloop, hs'⟩ := lineLoop hlive (buf ++ [b]) hahead hin
      rw [append_assoc, singleton_append] at hloop hs'
      refine ⟨s', loop_returns_of_next ?_ hloop, hs'⟩
      rw [lineRound]
      have hidx : ¬ 0 ≤ indexOf (buf ++ [b]) crlf := fun h => hin ((indexOf_nonneg_iff (by decide)).mp h)
      simp only [hchunk, length_singleton, one_ne_zero, if_false, hidx, returns_pure]

/-- **A line is what stands before the first CRLF**, however the bytes arrive. -/
theorem readLine_realises (hlive : T.Live 1) : Realises T (readLine T) lineOf := fun s => by
  have hnil : ¬ crlf <:+: [] := by decide
  exact lineLoop hlive [] rfl hnil

theorem linesOf_eq : ∀ {n m : Nat} {l : Str}, l.length < n → l.length < m → linesOf n l = linesOf m l
  | 0, _, _, hn, _ => nomatch hn
  | _ + 1, 0, _, _, hm => nomatch hm
  | n + 1, m + 1, l, hn, hm => by
    rw [linesOf, linesOf]
    by_cases hline : (lineOf l).1 = []
    · rw [if_pos hline, if_pos hline]
    · have hlt := lineOf_length_lt hline
      rw [if_neg hline, if_neg hline, @linesOf_eq n m _ (by omega) (by omega)]

theorem blockOf_blank (h : (lineOf l).1 = []) : blockOf l = ([], (lineOf l).2) := by
  rw [blockOf, linesOf, if_pos h]

theorem blockOf_line (h : (lineOf l).1 ≠ []) :
    blockOf l = ((lineOf l).1 :: (blockOf (lineOf l).2).1, (blockOf (lineOf l).2).2) := by
  have hlt := lineOf_length_lt h
  have hrest : linesOf l.length (lineOf l).2 = blockOf (lineOf l).2 := linesOf_eq hlt (lt_succ_self _)
  rw [blockOf, linesOf, if_neg h, hrest]

theorem linesOf_suffix : ∀ (n : Nat) (l : Str), (linesOf n l).2 <:+ l
  | 0, _ => suffix_rfl
  | n + 1, l => by
    rw [linesOf]
    split
    · exact cutPair_suffix l
    · exact (linesOf_suffix n _).trans (cutPair_suffix l)

section Blank

variable {β : Type} (add : β → Str → β)

/-- The loop over lines, when the first line of `l` has been read. -/
theorem blankLoop (hlive : T.Live 1) : ∀ (n : Nat) {l : Str} {b : β} {s : σ}, l.length < n →
    T.ahead s = (lineOf l).2 →
    ∃ s', (loop (blankRound T add) (b, (lineOf l).1, s)).Returns ((blockOf l).1.foldl add b, s') ∧
      T.ahead s' = (blockOf l).2
  | 0, _, _, _, hn, _ => nomatch hn
  | n + 1, l, b, s, hn, hs => by
    by_cases hline : (lineOf l).1 = []
    · rw [blockOf_blank hline]
      refine ⟨s, loop_returns_of_exit ?_, hs⟩
      rw [blankRound, if_neg (by simp [hline]), returns_pure, foldl_nil]
    · have hlt := lineOf_length_lt hline
      obtain ⟨s₁, hread, hs₁⟩ := readLine_realises hlive s
      rw [hs] at hread hs₁
      obtain ⟨s', hloop, hs'⟩ := blankLoop hlive n (b := add b (lineOf l).1) (by omega) hs₁
      rw [blockOf_line hline, foldl_cons]
      refine ⟨s', loop_returns_of_next ?_ hloop, hs'⟩
      rw [blankRound, if_pos (length_pos_iff.mpr hline)]
      exact returns_bind.mpr ⟨_, hread, returns_pure.mpr rfl⟩

/-- **The lines up to the first empty one.** -/
theorem untilBlank_realises (hlive : T.Live 1) (b : β) :
    Realises T (untilBlank T add b) fun l => ((blockOf l).1.foldl add b, (blockOf l).2) := fun s => by
  obtain ⟨s₁, hread, hs₁⟩ := readLine_realises hlive s
  obtain ⟨s', hloop, hs'⟩ := blankLoop add hlive _ (b := b) (lt_succ_self _) hs₁
  exact ⟨s', returns_bind.mpr ⟨_, hread, hloop⟩, hs'⟩

end Blank

/-! ## 5. Bodies -/

/-- A read that yields something leaves less. -/
theorem length_ahead_lt (h : (T.recv n s).1 ≠ []) : (T.ahead (T.recv n s).2).length < (T.ahead s).length := by
  have happ := congrArg List.length (T.recv_append n s)
  have hpos := length_pos_iff.mpr h
  rw [length_append] at happ
  omega

/-- Whatever is asked for, the loop ends. -/
theorem fillLoop_consumes (limit : Int) (ask : Str → Nat) : ∀ (n : Nat) (buf : Str) {s : σ},
    (T.ahead s).length < n →
    ∃ b s', (loop (fillRound T limit ask) (buf, s)).Returns (b, s') ∧ T.ahead s' <:+ T.ahead s
  | 0, _, _, hn => nomatch hn
  | n + 1, buf, s, hn => by
    have hsuffix : T.ahead (T.recv (ask buf) s).2 <:+ T.ahead s := ⟨_, T.recv_append (ask buf) s⟩
    by_cases hlimit : (buf.length : Int) < limit
    · by_cases hchunk : (T.recv (ask buf) s).1 = []
      · refine ⟨buf, _, loop_returns_of_exit ?_, hsuffix⟩
        simp only [fillRound, hlimit, hchunk, if_true, length_nil, returns_pure]
      · have hlt := length_ahead_lt hchunk
        obtain ⟨b, s', hloop, hs'⟩ := fillLoop_consumes limit ask n
          (buf ++ (T.recv (ask buf) s).1) (s := (T.recv (ask buf) s).2) (by omega)
        refine ⟨b, s', loop_returns_of_next ?_ hloop, hs'.trans hsuffix⟩
        simp only [fillRound, hlimit, if_true, length_eq_zero_iff, hchunk, if_false, returns_pure]
    · refine ⟨buf, s, loop_returns_of_exit ?_, suffix_rfl⟩
      simp only [fillRound, hlimit, if_false, returns_pure]

theorem readExact_consumes (length : Int) : Consumes T (readExact T length) := fun _ =>
  fillLoop_consumes _ _ _ [] (lt_succ_self _)

theorem readAll_consumes (max : Int) : Consumes T (readAll T max) := fun _ =>
  fillLoop_consumes _ _ _ [] (lt_succ_self _)

/-- The loop of `read_exact`, with `buf` read already and `k` bytes missing. -/
theorem exactLoop (hlive : ∀ m, 0 < m → m ≤ n → T.Live m) : ∀ (k : Nat) (buf : Str) {s : σ},
    buf.length + k = n →
    ∃ s', (loop (fillRound T n fun buf => ((n : Int) - buf.length).toNat) (buf, s)).Returns
      (buf ++ (T.ahead s).take k, s') ∧ T.ahead s' = (T.ahead s).drop k := by
  intro k
  induction k using Nat.strong_induction_on with
  | _ k ih =>
    intro buf s hk
    have hask : ((n : Int) - buf.length).toNat = k := by omega
    by_cases hzero : k = 0
    · subst hzero
      refine ⟨s, loop_returns_of_exit ?_, by simp⟩
      rw [fillRound, if_neg (by simp only; omega), returns_pure, take_zero, append_nil]
    · have hlimit : (buf.length : Int) < n := by omega
      have hlen := T.length_recv k s
      have hchunkAll := T.recv_append k s
      by_cases hchunk : (T.recv k s).1 = []
      · -- nothing came: there is nothing ahead
        have hnil : T.ahead s = [] := by
          by_contra hne
          exact hlive k (by omega) (by omega) s hne hchunk
        refine ⟨(T.recv k s).2, loop_returns_of_exit ?_, ?_⟩
        · simp only [fillRound, hask, hlimit, hchunk, if_true, length_nil, returns_pure, hnil,
            take_nil, append_nil]
        · rw [(recv_nil hnil).2, hnil, drop_nil]
      · have hpos := length_pos_iff.mpr hchunk
        obtain ⟨s', hloop, hs'⟩ := ih (k - (T.recv k s).1.length) (by omega)
          (buf ++ (T.recv k s).1) (s := (T.recv k s).2) (by rw [length_append]; omega)
        have htake : (T.ahead s).take k =
            (T.recv k s).1 ++ (T.ahead (T.recv k s).2).take (k - (T.recv k s).1.length) := by
          rw [← hchunkAll, take_append, take_of_length_le hlen]
        have hdrop : (T.ahead s).drop k = (T.ahead (T.recv k s).2).drop (k - (T.recv k s).1.length) := by
          rw [← hchunkAll, drop_append, drop_eq_nil_of_le hlen, nil_append]
        rw [append_assoc, ← htake] at hloop
        refine ⟨s', loop_returns_of_next ?_ hloop, hs'.trans hdrop.symm⟩
        simp only [fillRound, hask, hlimit, if_true, length_eq_zero_iff, hchunk, if_false, returns_pure]

/-- **Exactly the bytes asked for**, or all there are. -/
theorem readExact_realises (hlive : ∀ m, 0 < m → m ≤ n → T.Live m) :
    Realises T (readExact T n) fun l => (l.take n, l.drop n) := fun _ =>
  exactLoop hlive n [] (by simp)

/-- Every chunk takes a line that is not empty, so the loop ends. -/
theorem chunkedLoop_consumes (hlive : T.Live 1) : ∀ (n : Nat) (body : Str) {s : σ}, (T.ahead s).length < n →
    ∃ b s', (loop (chunkedRound T) (body, s)).Returns (b, s') ∧ T.ahead s' <:+ T.ahead s
  | 0, _, _, hn => nomatch hn
  | n + 1, body, s, hn => by
    obtain ⟨s₁, hread, hs₁⟩ := readLine_realises hlive s
    have hsuffix : T.ahead s₁ <:+ T.ahead s := hs₁ ▸ cutPair_suffix _
    by_cases hlast : httpParseHex (lineOf (T.ahead s)).1 ≤ 0 ∨ (lineOf (T.ahead s)).1.length = 0
    · obtain ⟨s₂, hblank, hs₂⟩ := untilBlank_realises (fun (u : Unit) _ => u) hlive () s₁
      refine ⟨body, s₂, loop_returns_of_exit ?_, hs₂ ▸ (linesOf_suffix _ _).trans hsuffix⟩
      refine returns_bind.mpr ⟨_, hread, ?_⟩
      rw [if_pos hlast]
      exact returns_bind.mpr ⟨_, hblank, returns_pure.mpr rfl⟩
    · have hlt : (T.ahead s₁).length < (T.ahead s).length := by
        rw [hs₁]
        exact lineOf_length_lt fun h => hlast (.inr (by rw [h, length_nil]))
      obtain ⟨data, s₂, hdata, hs₂⟩ := readExact_consumes (T := T) (httpParseHex (lineOf (T.ahead s)).1) s₁
      obtain ⟨stop, s₃, hstop, hs₃⟩ := readExact_consumes (T := T) 2 s₂
      have hle := (hs₃.trans hs₂).length_le
      obtain ⟨b, s', hloop, hs'⟩ := chunkedLoop_consumes hlive n (body ++ data) (s := s₃) (by omega)
      refine ⟨b, s', loop_returns_of_next ?_ hloop, ((hs'.trans hs₃).trans hs₂).trans hsuffix⟩
      refine returns_bind.mpr ⟨_, hread, ?_⟩
      rw [if_neg hlast]
      exact returns_bind.mpr ⟨_, hdata, returns_bind.mpr ⟨_, hstop, returns_pure.mpr rfl⟩⟩

theorem readChunked_consumes (hlive : T.Live 1) : Consumes T (readChunked T) := fun _ =>
  chunkedLoop_consumes hlive _ [] (lt_succ_self _)

theorem readBody_consumes (hlive : T.Live 1) (head : Head) : Consumes T (readBody T head) := by
  intro s
  rw [readBody]
  split_ifs
  · exact readChunked_consumes hlive s
  · exact readExact_consumes head.length s
  · exact readAll_consumes 65536 s

/-! ## 6. The response -/

theorem headers_foldl : ∀ (hs : List Str) (head : Head), (hs.foldl Head.add head).headers = head.headers ++ hs
  | [], head => (append_nil _).symm
  | h :: hs, head => by
    rw [foldl_cons, headers_foldl hs]
    simp [Head.add]

/-- What the client makes of the bytes `l` of an answer, but for the body. -/
def answerOf (l body : Str) : HttpResponse :=
  if httpStatusCode (lineOf l).1 < 0 then httpErr (ascii "bad response: no status line")
  else
    { status := httpStatusCode (lineOf l).1
      reason := reasonOf (lineOf l).1
      headers := (blockOf (lineOf l).2).1
      body := body
      error := none }

/-- **A response is always returned**, and all but its body is in the first lines. -/
theorem readResponse_spec (hlive : T.Live 1) (s : σ) :
    ∃ body, (readResponse T s).Returns (answerOf (T.ahead s) body) := by
  obtain ⟨s₁, hread, hs₁⟩ := readLine_realises hlive s
  by_cases hcode : httpStatusCode (lineOf (T.ahead s)).1 < 0
  · refine ⟨[], returns_bind.mpr ⟨_, hread, ?_⟩⟩
    rw [answerOf, if_pos hcode, if_pos hcode, returns_pure]
  · obtain ⟨s₂, hblock, hs₂⟩ := untilBlank_realises Head.add hlive {} s₁
    obtain ⟨body, s₃, hbody, -⟩ := readBody_consumes hlive ((blockOf (T.ahead s₁)).1.foldl Head.add {}) s₂
    refine ⟨body, returns_bind.mpr ⟨_, hread, ?_⟩⟩
    rw [answerOf, if_neg hcode, if_neg hcode]
    refine returns_bind.mpr ⟨_, hblock, returns_bind.mpr ⟨_, hbody, returns_pure.mpr ?_⟩⟩
    rw [headers_foldl, hs₁, nil_append]

end Readers

/-! ## 7. The readers of the two clients -/

def httpReadLine := readLine socket
def httpReadExact := readExact socket
def httpReadAll := readAll socket
def httpReadChunked := readChunked socket

def tlsReadLine := readLine tls
def tlsReadExact := readExact tls
def tlsReadAll := readAll tls
def tlsReadChunked := readChunked tls

end Vyb.Stdlib.Http

/-
  Subject:   Chunked bodies (`http_read_chunked`, `tls_read_chunked`).

  * `SizeLine`, `WireChunk`, `Trailer` -- what a sender may write: a size in digits of either case, with
    zeros in front and an extension behind; the data; lines of a trailer. `wire` is the whole body;
  * `readChunked_wire` -- on any transport whose reads do not fail for these sizes the data comes back, and
    what stands behind the body is left;
  * **`httpReadChunked_wire`** -- so it is for a socket, wherever its segments are cut;
  * `tlsReadChunked_wire` -- a TLS stream needs chunks of less than 2^31 bytes.
-/
import Vyb.Stdlib.Http

namespace Vyb.Stdlib.Http

open Lib Fueled Vyb.Runtime Str Collections List

/-! ## 1. What is written -/

/-- The line before a chunk. -/
structure SizeLine where
  digits : Str
  ext : Str
  digits_ne : digits ≠ []
  digits_hex : ∀ b ∈ digits, (hexValue b).isSome = true
  /-- An extension begins with `;` or a blank; here with anything that is no digit. -/
  ext_first : ∀ b, ext.head? = some b → hexValue b = none
  ext_line : ¬ crlf <:+: ext

def SizeLine.size (line : SizeLine) : Nat := numeral 16 hexValue line.digits

def SizeLine.text (line : SizeLine) : Str := line.digits ++ line.ext

/-- A chunk with data. The length of a String is an `Int`. -/
structure WireChunk where
  line : SizeLine
  data : Str
  size_eq : line.size = data.length
  data_ne : data ≠ []
  data_fits : data.length < 2 ^ 63

def WireChunk.text (c : WireChunk) : Str := c.line.text ++ crlf ++ c.data ++ crlf

/-- The line of the chunk that ends a body. -/
structure LastChunk where
  line : SizeLine
  size_zero : line.size = 0

/-- The fields behind the last chunk. -/
structure Trailer where
  lines : List Str
  lines_ne : ∀ l ∈ lines, l ≠ []
  lines_line : ∀ l ∈ lines, ¬ crlf <:+: l

/-- Lines, and the empty one behind them. -/
def blockText (lines : List Str) : Str := (lines.flatMap fun l => l ++ crlf) ++ crlf

/-- **A chunked body.** -/
def wire (chunks : List WireChunk) (last : LastChunk) (trailer : Trailer) : Str :=
  chunks.flatMap WireChunk.text ++ (last.line.text ++ crlf ++ blockText trailer.lines)

/-! ## 2. Lines -/

theorem infix_of_append {x y : UInt8} : ∀ {a b : Str}, x ∉ a → [x, y] <:+: a ++ b → [x, y] <:+: b
  | [], _, _, h => h
  | c :: a, b, hx, h => by
    rcases infix_cons_iff.mp h with hp | hin
    · have hc : c = x := (pair_prefix_iff.mp hp).1
      exact absurd (hc ▸ mem_cons_self) hx
    · exact infix_of_append (fun hmem => hx (mem_cons_of_mem c hmem)) hin

theorem lineOf_append {line : Str} (rest : Str) (h : ¬ crlf <:+: line) :
    lineOf (line ++ crlf ++ rest) = (line, rest) := by
  have hcr : ¬ crlf <:+: line ++ [13] := by
    intro hin
    obtain ⟨-, -, hlf⟩ := crlf_of_snoc h hin
    cases hlf
  rw [append_assoc]
  exact cutPair_append hcr

theorem blockOf_append (rest : Str) : ∀ {lines : List Str}, (∀ l ∈ lines, l ≠ []) →
    (∀ l ∈ lines, ¬ crlf <:+: l) → blockOf (blockText lines ++ rest) = (lines, rest)
  | [], _, _ => by
    have hline : lineOf (blockText [] ++ rest) = ([], rest) := lineOf_append rest (by decide)
    rw [blockOf_blank (by rw [hline]), hline]
  | l :: lines, hne, hline => by
    have hfirst : lineOf (blockText (l :: lines) ++ rest) = (l, blockText lines ++ rest) := by
      rw [← lineOf_append _ (hline l mem_cons_self)]
      simp [blockText]
    have hrest := blockOf_append rest (fun k hk => hne k (mem_cons_of_mem l hk))
      fun k hk => hline k (mem_cons_of_mem l hk)
    rw [blockOf_line (by rw [hfirst]; exact hne l mem_cons_self), hfirst, hrest]

namespace SizeLine

variable (line : SizeLine)

theorem text_line : ¬ crlf <:+: line.text := by
  intro hin
  refine line.ext_line (infix_of_append (fun hcr => ?_) hin)
  exact absurd (line.digits_hex 13 hcr) (by decide)

theorem parse_text (h : line.size < 2 ^ 63) : httpParseHex line.text = line.size := by
  rw [httpParseHex_eq, text, numeral_append line.digits_hex line.ext_first]
  exact wrap64_natCast h

theorem text_ne : line.text ≠ [] := by simp [text, line.digits_ne]

end SizeLine

/-! ## 3. Bodies -/

section Reading

variable {σ : Type} {T : Transport σ UInt8} {rest : Str} {s : σ}

theorem chunkedRound_last (hlive : T.Live 1) (last : LastChunk) (trailer : Trailer) (body : Str)
    (h : T.ahead s = last.line.text ++ crlf ++ blockText trailer.lines ++ rest) :
    ∃ s', (chunkedRound T (body, s)).Returns (.inr (body, s')) ∧ T.ahead s' = rest := by
  rw [append_assoc _ (blockText _) rest] at h
  obtain ⟨s₁, hread, hs₁⟩ := (readLine_realises hlive).apply h (lineOf_append _ last.line.text_line)
  obtain ⟨s₂, hblank, hs₂⟩ := (untilBlank_realises (fun (u : Unit) _ => u) hlive ()).apply (b := ()) hs₁
    (congrArg (Prod.map (fun _ => ()) id) (blockOf_append rest trailer.lines_ne trailer.lines_line))
  have hparse := last.line.parse_text (by rw [last.size_zero]; decide)
  refine ⟨s₂, returns_bind.mpr ⟨_, hread, ?_⟩, hs₂⟩
  rw [if_pos (.inl (by rw [hparse, last.size_zero]; exact le_refl _))]
  exact returns_bind.mpr ⟨_, hblank, returns_pure.mpr rfl⟩

theorem chunkedRound_data (hlive : T.Live 1) (htwo : T.Live 2) (c : WireChunk)
    (hdata : ∀ m, 0 < m → m ≤ c.data.length → T.Live m) (body : Str) (h : T.ahead s = c.text ++ rest) :
    ∃ s', (chunkedRound T (body, s)).Returns (.inl (body ++ c.data, s')) ∧ T.ahead s' = rest := by
  have hahead : T.ahead s = c.line.text ++ crlf ++ (c.data ++ (crlf ++ rest)) := by
    rw [h, WireChunk.text]
    simp only [append_assoc]
  have hpair : ∀ m, 0 < m → m ≤ 2 → T.Live m := by
    intro m hpos hle
    obtain rfl | rfl : m = 1 ∨ m = 2 := by omega
    · exact hlive
    · exact htwo
  obtain ⟨s₁, hread, hs₁⟩ := (readLine_realises hlive).apply hahead (lineOf_append _ c.line.text_line)
  obtain ⟨s₂, hexact, hs₂⟩ := (readExact_realises hdata).apply hs₁ (Prod.ext take_left drop_left)
  obtain ⟨s₃, hstop, hs₃⟩ := (readExact_realises hpair).apply (b := crlf) (r := rest) hs₂ rfl
  have hparse : httpParseHex c.line.text = c.data.length := by
    rw [c.line.parse_text (by rw [c.size_eq]; exact c.data_fits), c.size_eq]
  have hmore : ¬ (httpParseHex c.line.text ≤ 0 ∨ c.line.text.length = 0) := by
    have hpos := length_pos_iff.mpr c.data_ne
    have hline := length_pos_iff.mpr c.line.text_ne
    omega
  refine ⟨s₃, returns_bind.mpr ⟨_, hread, ?_⟩, hs₃⟩
  rw [if_neg hmore, hparse]
  exact returns_bind.mpr ⟨_, hexact, returns_bind.mpr ⟨_, hstop, returns_pure.mpr rfl⟩⟩

/-- The loop, when `body` has been read. -/
theorem chunkedLoop (hlive : T.Live 1) (htwo : T.Live 2) (last : LastChunk) (trailer : Trailer) {rest : Str} :
    ∀ {chunks : List WireChunk} (body : Str) {s : σ},
    (∀ c ∈ chunks, ∀ m, 0 < m → m ≤ c.data.length → T.Live m) →
    T.ahead s = wire chunks last trailer ++ rest →
    ∃ s', (loop (chunkedRound T) (body, s)).Returns (body ++ chunks.flatMap WireChunk.data, s') ∧
      T.ahead s' = rest
  | [], body, s, _, h => by
    obtain ⟨s', hround, hs'⟩ := chunkedRound_last hlive last trailer body h
    exact ⟨s', by simpa using loop_returns_of_exit hround, hs'⟩
  | c :: chunks, body, s, hdata, h => by
    have hahead : T.ahead s = c.text ++ (wire chunks last trailer ++ rest) := by
      rw [h, wire, wire, flatMap_cons]
      simp only [append_assoc]
    obtain ⟨s₁, hround, hs₁⟩ := chunkedRound_data hlive htwo c (hdata c mem_cons_self) body hahead
    obtain ⟨s', hloop, hs'⟩ := chunkedLoop hlive htwo last trailer (body ++ c.data)
      (fun d hd => hdata d (mem_cons_of_mem c hd)) hs₁
    rw [append_assoc] at hloop
    exact ⟨s', loop_returns_of_next hround hloop, hs'⟩

/-- A chunked body on a transport whose reads do not fail for its sizes. -/
theorem readChunked_wire (hlive : T.Live 1) (htwo : T.Live 2) {chunks : List WireChunk} (last : LastChunk)
    (trailer : Trailer) (hdata : ∀ c ∈ chunks, ∀ m, 0 < m → m ≤ c.data.length → T.Live m)
    (h : T.ahead s = wire chunks last trailer ++ rest) :
    ∃ s', (readChunked T s).Returns (chunks.flatMap WireChunk.data, s') ∧ T.ahead s' = rest :=
  chunkedLoop hlive htwo last trailer [] hdata h

end Reading

/-- **Chunked bodies over a socket**: for all chunks, extensions and trailers, and wherever the bytes are cut
into reads, the data is returned and the stream stands right behind the empty line. -/
theorem httpReadChunked_wire (chunks : List WireChunk) (last : LastChunk) (trailer : Trailer) (rest : Str)
    (s : Segments UInt8) (h : s.ahead = wire chunks last trailer ++ rest) :
    ∃ s', (httpReadChunked s).Returns (chunks.flatMap WireChunk.data, s') ∧ s'.ahead = rest :=
  readChunked_wire (socket_live (by decide)) (socket_live (by decide)) last trailer
    (fun _ _ _ hpos _ => socket_live hpos) h

/-- Two chunks, an extension, digits of either case and a field behind them, cut inside of line ends. -/
theorem httpReadChunked_wire_cut :
    ∃ s', (httpReadChunked ⟨[ascii "00B;n=v\r", ascii "\nhello", ascii " world\r\n1",
      ascii "\r\n!\r\n0\r\nA: b\r", ascii "\n\r\nnext"], by decide +kernel⟩).Returns
      (ascii "hello world!", s') ∧ s'.ahead = ascii "next" :=
  httpReadChunked_wire
    [⟨⟨ascii "00B", ascii ";n=v", by decide +kernel, by decide +kernel, by simp [ascii, hexValue],
        by decide +kernel⟩, ascii "hello world", by decide +kernel, by decide +kernel, by decide +kernel⟩,
      ⟨⟨ascii "1", [], by decide +kernel, by decide +kernel, by simp, by decide +kernel⟩, ascii "!",
        by decide +kernel, by decide +kernel, by decide +kernel⟩]
    ⟨⟨ascii "0", [], by decide +kernel, by decide +kernel, by simp, by decide +kernel⟩, by decide +kernel⟩
    ⟨[ascii "A: b"], by decide +kernel, by decide +kernel⟩ (ascii "next") _ (by decide +kernel)

/-- Over TLS the chunks must not be longer than an `int` can say. -/
theorem tlsReadChunked_wire (chunks : List WireChunk) (last : LastChunk) (trailer : Trailer) (rest : Str)
    (s : Segments UInt8) (hint : ∀ c ∈ chunks, c.data.length < 2 ^ 31)
    (h : s.ahead = wire chunks last trailer ++ rest) :
    ∃ s', (tlsReadChunked s).Returns (chunks.flatMap WireChunk.data, s') ∧ s'.ahead = rest :=
  readChunked_wire (tls_live (by decide) (by decide)) (tls_live (by decide) (by decide)) last trailer
    (fun c hc _ hpos hle => tls_live hpos (hle.trans_lt (hint c hc))) h

end Vyb.Stdlib.Http

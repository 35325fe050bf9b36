/-
  Subject:   What `decode_ids` makes of the ids that `encode_with` returns.

  The ids of a symbol are decoded to its bytes if the vocabulary has it. If not, `bpe_word_ids` looks up the
  glyphs of the bytes of the symbol's *text*, which is in glyphs already: a symbol with a glyph of two bytes
  comes back as these two bytes.

  * `decodeIds_tokenIds` -- what becomes of one symbol;
  * **`roundTrip_iff`** -- a text comes back exactly if every symbol of its segments is in the vocabulary or
    consists of bytes that are their own glyphs;
  * `roundTrip_of_closed` -- so it does where the vocabulary has what the merges make.
-/
import Vyb.Lib.Split
import Vyb.Stdlib.Tokenizer

namespace Vyb.Stdlib.Vllm

open Lib Vyb.Runtime List Bpe

/-- The entries of `vocab.json`: the ids are distinct, and every byte has its glyph. -/
structure Vocabulary where
  entries : List (Str × Int)
  ids_nodup : (entries.map Prod.snd).Nodup
  bytes : ∀ b < 256, ∃ id, (byteChar b, id) ∈ entries

namespace Vocabulary

variable (V : Vocabulary)

/-- What `build_vocab` puts, entry by entry. -/
def vocab : Table Int := replay V.entries

/-- What `build_revvocab` puts. -/
def rev : List (Int × Str) := replay (V.entries.map Prod.swap)

/-- `encode(s)`, with the text of `merges.txt` -/
def encode (merges s : Str) : List Int := encodeWith V.vocab (buildMerges merges) spaceChar s

/-- `decode(ids)` -/
def decode (ids : List Int) : Str := decodeIds V.rev ids

/-- A symbol that has an id. -/
def Knows (tk : Str) : Prop := ∃ id, 0 ≤ id ∧ V.vocab.lookup tk = some id

end Vocabulary

open Vocabulary

/-- Bytes that are their own glyphs. -/
def Printable (t : Str) : Prop := ∀ x ∈ t, 33 ≤ x.toNat ∧ x.toNat ≤ 126

/-! ## 1. One symbol -/

section

variable {V : Vocabulary}

theorem rev_lookup {tk : Str} {id : Int} (h : V.vocab.lookup tk = some id) : V.rev.lookup id = some tk := by
  have hmem : (tk, id) ∈ V.entries :=
    mem_of_mem_replay ((lookup_eq_some_iff_mem (replay_keys_nodup V.entries)).mp h)
  have hkeys : ((V.entries.map Prod.swap).map Prod.fst).Nodup := by
    rw [map_map]
    exact V.ids_nodup
  rw [rev, lookup_eq_some_iff_mem (replay_keys_nodup _), replay_of_nodup hkeys]
  exact mem_map.mpr ⟨(tk, id), hmem, rfl⟩

theorem decode_known {t : Str} {id : Int} (h : V.vocab.lookup (glyphs t) = some id) : V.decode [id] = t := by
  rw [decode, decodeIds, flatMap_singleton, rev_lookup h, Option.getD_some, decodeToken_glyphs]

theorem lookup_byteChar (x : UInt8) : ∃ id, V.vocab.lookup (byteChar x.toNat) = some id := by
  obtain ⟨id, hid⟩ := V.bytes x.toNat x.toNat_lt
  obtain ⟨⟨tk, id'⟩, hmem, rfl⟩ := exists_mem_replay hid
  exact ⟨id', (lookup_eq_some_iff_mem (replay_keys_nodup V.entries)).mpr hmem⟩

/-- **What becomes of one symbol**: one that is not known comes back as its text in glyphs. -/
theorem decodeIds_tokenIds (t : Str) :
    (V.Knows (glyphs t) → V.decode (tokenIds V.vocab (glyphs t)) = t) ∧
      (¬ V.Knows (glyphs t) → V.decode (tokenIds V.vocab (glyphs t)) = glyphs t) := by
  rw [tokenIds]
  refine ⟨?_, fun hunknown => ?_⟩
  · rintro ⟨id, hpos, hid⟩
    simp only [hid, Option.getD_some, if_pos hpos]
    exact decode_known hid
  · have hneg : ¬ 0 ≤ (V.vocab.lookup (glyphs t)).getD (-1) := by
      cases hid : V.vocab.lookup (glyphs t) with
      | none => decide
      | some id => exact fun hpos => hunknown ⟨id, hpos, hid⟩
    simp only [if_neg hneg]
    rw [decode, decodeIds, flatMap_map]
    have hbyte : ∀ x ∈ glyphs t, decodeToken
        ((V.rev.lookup ((V.vocab.lookup (byteChar x.toNat)).getD (-1))).getD []) = [x] := by
      intro x _
      obtain ⟨id, hid⟩ := lookup_byteChar (V := V) x
      rw [hid, Option.getD_some, rev_lookup hid, Option.getD_some, ← glyphs_singleton, decodeToken_glyphs]
    rw [flatMap_congr hbyte, flatMap_singleton']

theorem glyphs_printable {t : Str} (h : Printable t) : glyphs t = t := by
  have hglyph : ∀ x ∈ t, byteChar x.toNat = [x] := by
    intro x hx
    obtain ⟨hlo, hhi⟩ := h x hx
    rw [byteChar_printable _ x.toNat_lt hlo hhi, UInt8.ofNat_toNat]
  rw [glyphs, flatMap_congr hglyph, flatMap_singleton']

/-- Another glyph starts with a byte that is not its own glyph. -/
theorem byteChar_lead :
    ∀ b < 256, ¬ (33 ≤ b ∧ b ≤ 126) → 194 ≤ ((byteChar b).headD 0).toNat := by decide +kernel

theorem printable_glyphs_iff {t : Str} : Printable (glyphs t) ↔ Printable t := by
  constructor
  · intro h x hx
    by_contra hx'
    have hlead := byteChar_lead x.toNat x.toNat_lt hx'
    cases hg : byteChar x.toNat with
    | nil => exact byteChar_ne_nil x.toNat_lt hg
    | cons y g =>
      rw [hg] at hlead
      have hy := h y (mem_flatMap.mpr ⟨x, hx, hg ▸ mem_cons_self⟩)
      exact absurd hy.2 (Nat.not_le.mpr (Nat.lt_of_lt_of_le (by decide) hlead))
  · intro h
    rwa [glyphs_printable h]

/-- The text is as long only if every byte is its own glyph. -/
theorem printable_of_length {t : Str} (h : (glyphs t).length = t.length) : Printable t := by
  induction t with
  | nil => exact fun x hx => absurd hx not_mem_nil
  | cons b t ih =>
    have hrest := length_glyphs t
    have hb := length_byteChar b.toNat b.toNat_lt
    have hsum : (glyphs (b :: t)).length = (byteChar b.toNat).length + (glyphs t).length := length_append
    rw [hsum, length_cons] at h
    split at hb
    · rename_i hprint
      intro x hx
      rcases mem_cons.mp hx with rfl | hx
      · exact hprint
      · exact ih (by omega) x hx
    · omega

end

/-! ## 2. A whole text -/

/-- Lists that come out of a change of every element are changed lists. -/
theorem exists_of_flatten_map {α β : Type} {f : α → β} : ∀ {L : List (List β)} {l : List α},
    L.flatten = l.map f → ∃ P : List (List α), L = P.map (List.map f) ∧ P.flatten = l
  | [], l, h => ⟨[], rfl, by simpa using h.symm⟩
  | w :: L, l, h => by
    obtain ⟨l₁, l₂, rfl, hw, hL⟩ := map_eq_append_iff.mp h.symm
    obtain ⟨P, rfl, hP⟩ := exists_of_flatten_map hL.symm
    exact ⟨l₁ :: P, by rw [map_cons, hw], by rw [flatten_cons, hP]⟩

section

variable (V : Vocabulary) (merges s : Str)

/-- The symbols that merging leaves of the segments of a text. -/
def symbols : List Str := (pieces spaceChar s).flatMap (Bpe.bpe (pairRankOf (buildMerges merges)))

/-- They are the glyphs of byte strings that together are the text. -/
theorem symbols_eq : ∃ T : List Str, symbols merges s = T.map glyphs ∧ T.flatten = s := by
  obtain ⟨P, hP, hflat⟩ := exists_of_flatten_map (pieces_flatten spaceChar s)
  have hbpe : ∀ w : Str, bpe (pairRankOf (buildMerges merges)) (w.map fun b => byteChar b.toNat) =
      (bpe (fun x y => pairRankOf (buildMerges merges) (glyphs x) (glyphs y)) (letters w)).map glyphs := by
    intro w
    rw [← bpe_map glyphs_append (fun _ _ => rfl), ← textToChars_eq, textToChars]
  refine ⟨P.flatMap fun w => bpe (fun x y => pairRankOf (buildMerges merges) (glyphs x) (glyphs y))
    (letters w), ?_, ?_⟩
  · rw [symbols, hP, flatMap_map, map_flatMap]
    exact flatMap_congr fun w _ => hbpe w
  · have hpart : ∀ w : Str, (bpe (fun x y => pairRankOf (buildMerges merges) (glyphs x) (glyphs y))
        (letters w)).flatten = w := by
      intro w
      rw [comes_flatten (bpe_spec _ _).1, flatten_letters]
    rw [← flatMap_id, flatMap_assoc]
    simp only [flatMap_id, hpart]
    rw [flatMap_id', hflat]

theorem decode_encode : V.decode (V.encode merges s) =
    (symbols merges s).flatMap fun tk => V.decode (tokenIds V.vocab tk) := by
  rw [encode, encodeWith_eq, decode, decodeIds, ← flatMap_assoc, ← symbols, flatMap_assoc]
  rfl

/-- What becomes of every symbol: one that is not known comes back in glyphs. -/
theorem decode_encode_symbols [DecidablePred V.Knows] : ∃ T : List Str, symbols merges s = T.map glyphs ∧
    T.flatten = s ∧ V.decode (V.encode merges s) = T.flatMap fun t => if V.Knows (glyphs t) then t else glyphs t := by
  obtain ⟨T, hT, hflat⟩ := symbols_eq merges s
  refine ⟨T, hT, hflat, ?_⟩
  rw [decode_encode, hT, flatMap_map]
  refine flatMap_congr fun t _ => ?_
  split
  · exact (decodeIds_tokenIds t).1 ‹_›
  · exact (decodeIds_tokenIds t).2 ‹_›

variable {V merges s}

theorem decode_of_symbols (h : ∀ tk ∈ symbols merges s, V.Knows tk ∨ Printable tk) :
    V.decode (V.encode merges s) = s := by
  classical
  obtain ⟨T, hT, hflat, hdecode⟩ := decode_encode_symbols V merges s
  have hsame : ∀ t ∈ T, (if V.Knows (glyphs t) then t else glyphs t) = t := by
    intro t ht
    split
    · rfl
    · rename_i hk
      have hprint := (h (glyphs t) (hT ▸ mem_map_of_mem ht)).resolve_left hk
      exact glyphs_printable (printable_glyphs_iff.mp hprint)
  rw [hdecode, flatMap_congr hsame, flatMap_id', hflat]

theorem symbols_of_decode (h : V.decode (V.encode merges s) = s) :
    ∀ tk ∈ symbols merges s, V.Knows tk ∨ Printable tk := by
  classical
  obtain ⟨T, hT, hflat, hdecode⟩ := decode_encode_symbols V merges s
  have hlong : ∀ t : Str, t.length ≤ (if V.Knows (glyphs t) then t else glyphs t).length := by
    intro t
    split
    · exact le_refl _
    · exact length_glyphs t
  rw [hdecode, ← hflat, ← flatMap_id'] at h
  rw [hT]
  intro tk htk
  obtain ⟨t, ht, rfl⟩ := mem_map.mp htk
  have hsame := ((flatMap_eq_iff_of_length hlong).mp h.symm t ht).symm
  by_cases hk : V.Knows (glyphs t)
  · exact .inl hk
  · rw [if_neg hk] at hsame
    exact .inr (printable_glyphs_iff.mpr (printable_of_length (by rw [hsame])))

variable (V merges s) in
/-- **A text comes back** exactly if every symbol of its segments is known or made of bytes that are their own
    glyphs. -/
theorem roundTrip_iff : V.decode (V.encode merges s) = s ↔
    ∀ tk ∈ symbols merges s, V.Knows tk ∨ Printable tk :=
  ⟨symbols_of_decode, decode_of_symbols⟩

end

/-- The glyphs of the bytes, and nothing else. -/
def byteVocabulary : Vocabulary where
  entries := (List.range 256).map fun b => (byteChar b, (b : Int))
  ids_nodup := by
    rw [map_map]
    exact nodup_range.map Nat.cast_injective
  bytes := fun b hb => ⟨b, mem_map.mpr ⟨b, mem_range.mpr hb, rfl⟩⟩

theorem byteVocabulary_keys : (byteVocabulary.entries.map Prod.fst).Nodup := by
  rw [byteVocabulary, map_map]
  refine nodup_range.map_on fun b hb c hc h => ?_
  exact byteChar_injective (mem_range.mp hb) (mem_range.mp hc) h

/-- **A merge that the vocabulary does not have**: with `Ġ b` in the merges, ` b` comes back as `Ġb`. -/
theorem missing_merge_in_glyphs : byteVocabulary.decode
    (byteVocabulary.encode ([0xC4, 0xA0] ++ Str.ascii " b") (Str.ascii " b")) = [0xC4, 0xA0, 0x62] ∧
      [0xC4, 0xA0, 0x62] ≠ Str.ascii " b" := by
  have hkeys : ((byteVocabulary.entries.map Prod.swap).map Prod.fst).Nodup := by
    rw [map_map]
    exact byteVocabulary.ids_nodup
  rw [decode, rev, encode, vocab, replay_of_nodup byteVocabulary_keys, replay_of_nodup hkeys]
  decide +kernel

end Vyb.Stdlib.Vllm

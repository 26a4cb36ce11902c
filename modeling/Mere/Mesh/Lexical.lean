import Mere.Base.Reader
import Mere.Base.Word

/-!
# The lexical record codec

From `crates/mesh/mesh/src/resources/lexical_codec.rs`. A cursor is the bytes that it has not passed
yet.
-/

namespace Mere.Mesh

open Reader

inductive SimilarityMetric where
  | cosine
  | euclidean
  | dotProduct

/-- The four bytes of an `f32`. -/
abbrev Word := UInt8 × UInt8 × UInt8 × UInt8

structure LexicalBatch where
  dimensions : Nat
  texts : List String

structure LexicalVectors where
  dimensions : Nat
  metric : SimilarityMetric
  vectors : List (List Word)

inductive CodecError where
  | wrongMagic (what : String)
  | truncated
  | trailing (bytes : Nat)
  | dimensions (found : Nat)
  | tooManyTexts (found : Nat)
  | textTooLong (index bytes : Nat)
  | notUtf8 (index : Nat)
  | metric (code : UInt8)

def maxDimensions : Nat := 4096

def maxTexts : Nat := 1024

def maxTextBytes : Nat := 64 * 1024

/-! ## Encoding -/

def asBytes (text : String) : Str := text.toByteArray.data.toList

/-- `as u32`, and then `to_le_bytes`. -/
def toLeBytes (n : Nat) : Word :=
  (.ofNat n, .ofNat (n / 2 ^ 8), .ofNat (n / 2 ^ 16), .ofNat (n / 2 ^ 24))

def Word.bytes (word : Word) : Str := [word.1, word.2.1, word.2.2.1, word.2.2.2]

def encodeU32 (n : Nat) : Str := (toLeBytes n).bytes

def metricCode : SimilarityMetric → UInt8
  | .cosine => 0
  | .euclidean => 1
  | .dotProduct => 2

def batchMagic : Str := asBytes "mesh.lexical.batch/v1\x00"

def vectorsMagic : Str := asBytes "mesh.lexical.vectors/v1\x00"

def encodeText (text : String) : Str := encodeU32 (asBytes text).length ++ asBytes text

def LexicalBatch.encode (batch : LexicalBatch) : Str :=
  batchMagic ++ (encodeU32 batch.dimensions ++ (encodeU32 batch.texts.length ++
    batch.texts.flatMap encodeText))

def LexicalVectors.encode (result : LexicalVectors) : Str :=
  vectorsMagic ++ (encodeU32 result.dimensions ++ (encodeU32 result.vectors.length ++
    (metricCode result.metric :: result.vectors.flatMap (·.flatMap Word.bytes))))

/-! ## Decoding -/

abbrev Cursor := Reader CodecError

def magic (expected : Str) (what : String) : Cursor Unit := do
  let found ← take .truncated expected.length
  if found ≠ expected then throw (.wrongMagic what) else return ()

def readU8 : Cursor UInt8 :=
  takeAs .truncated 1 (fun | [byte] => some byte | _ => none) .truncated

/-- The array that `take(4)` yields. -/
def readWord : Cursor Word :=
  takeAs .truncated 4 (fun | [a, b, c, d] => some (a, b, c, d) | _ => none) .truncated

def fromLeBytes (word : Word) : Nat :=
  word.1.toNat + 2 ^ 8 * word.2.1.toNat + 2 ^ 16 * word.2.2.1.toNat + 2 ^ 24 * word.2.2.2.toNat

def readU32 : Cursor Nat := do
  return fromLeBytes (← readWord)

def finish : Cursor Unit := fun bytes =>
  if 0 < bytes.length then .error (.trailing bytes.length) else .ok ((), bytes)

def metricFromCode : UInt8 → Cursor SimilarityMetric
  | 0 => pure .cosine
  | 1 => pure .euclidean
  | 2 => pure .dotProduct
  | other => throw (.metric other)

def readDimensions : Cursor Nat := do
  let dimensions ← readU32
  if dimensions = 0 ∨ dimensions > maxDimensions then throw (.dimensions dimensions)
  else return dimensions

def readCount : Cursor Nat := do
  let count ← readU32
  if count > maxTexts then throw (.tooManyTexts count) else return count

def readTextLen (index : Nat) : Cursor Nat := do
  let len ← readU32
  if len > maxTextBytes then throw (.textTooLong index len) else return len

def readText (index : Nat) : Cursor String := do
  let len ← readTextLen index
  takeAs .truncated len (fun raw => String.fromUTF8? ⟨raw.toArray⟩) (.notUtf8 index)

def LexicalBatch.decode (bytes : Str) : Except CodecError LexicalBatch :=
  StateT.run' (do
    magic batchMagic "lexical batch"
    let dimensions ← readDimensions
    let count ← readCount
    let texts ← each readText 0 count
    finish
    return ⟨dimensions, texts⟩) bytes

def LexicalVectors.decode (bytes : Str) : Except CodecError LexicalVectors :=
  StateT.run' (do
    magic vectorsMagic "lexical vectors"
    let dimensions ← readDimensions
    let count ← readCount
    let metric ← readU8 >>= metricFromCode
    let vectors ← each (fun _ => each (fun _ => readWord) 0 dimensions) 0 count
    finish
    return ⟨dimensions, metric, vectors⟩) bytes

/-! ## What each reader reads -/

theorem exact_magic (expected : Str) (what : String) :
    Exact (magic expected what) (fun _ => expected) fun _ => True := by
  intro bytes u rest
  simp only [magic, bind_ok, guard_ok, pure_ok, exact_take _ _ _ _ _, not_not, true_and]
  constructor
  · rintro ⟨raw, mid, ⟨-, rfl⟩, rfl, rfl⟩
    rfl
  · rintro rfl
    exact ⟨expected, rest, ⟨rfl, rfl⟩, rfl, rfl⟩

theorem exact_word : Exact readWord Word.bytes fun word => word.bytes.length = 4 :=
  exact_takeAs fun raw word => by
    constructor
    · intro h
      split at h <;> cases h
      rfl
    · rintro rfl
      rfl

theorem exact_u8 : Exact readU8 ([·]) fun byte => [byte].length = 1 :=
  exact_takeAs fun raw byte => by
    constructor
    · intro h
      split at h <;> cases h
      rfl
    · rintro rfl
      rfl

theorem toLeBytes_fromLeBytes (word : Word) :
    fromLeBytes word < 2 ^ 32 ∧ toLeBytes (fromLeBytes word) = word := by
  obtain ⟨a, b, c, d⟩ := word
  have ha := a.toNat_lt
  have hb := b.toNat_lt
  have hc := c.toNat_lt
  have hd := d.toNat_lt
  simp only [toLeBytes, fromLeBytes, Prod.mk.injEq, ← UInt8.toNat_inj, UInt8.toNat_ofNat']
  omega

theorem fromLeBytes_toLeBytes {n : Nat} (h : n < 2 ^ 32) : fromLeBytes (toLeBytes n) = n := by
  simp only [toLeBytes, fromLeBytes, UInt8.toNat_ofNat']
  omega

theorem exact_u32 : Exact readU32 encodeU32 (· < 2 ^ 32) := by
  intro bytes n rest
  simp only [readU32, bind_ok, pure_ok, exact_word _ _ _]
  constructor
  · rintro ⟨word, mid, ⟨-, rfl⟩, rfl, rfl⟩
    obtain ⟨hlt, hword⟩ := toLeBytes_fromLeBytes word
    exact ⟨hlt, by rw [encodeU32, hword]⟩
  · rintro ⟨h, rfl⟩
    exact ⟨toLeBytes n, rest, ⟨rfl, rfl⟩, fromLeBytes_toLeBytes h, rfl⟩

theorem exact_text (index : Nat) :
    Exact (readText index) encodeText fun text => (asBytes text).length ≤ maxTextBytes := by
  have hparse : ∀ raw text, String.fromUTF8? ⟨List.toArray raw⟩ = some text ↔ raw = asBytes text := by
    intro raw text
    constructor
    · intro h
      unfold String.fromUTF8? at h
      split at h <;> cases h
      rfl
    · rintro rfl
      exact dif_pos text.isValidUTF8
  have hlen : Exact (readTextLen index) encodeU32 _ := exact_u32.guard
  intro bytes text rest
  simp only [readText, bind_ok, hlen _ _ _, exact_takeAs hparse _ _ _]
  constructor
  · rintro ⟨len, mid, ⟨⟨-, h⟩, rfl⟩, rfl, rfl⟩
    exact ⟨Nat.le_of_not_lt h, by simp [encodeText]⟩
  · rintro ⟨h, rfl⟩
    refine ⟨_, _, ⟨⟨?_, Nat.not_lt.mpr h⟩, by rw [encodeText, List.append_assoc]⟩, rfl, rfl⟩
    unfold maxTextBytes at h
    omega

theorem exact_metric :
    Exact (readU8 >>= metricFromCode) (fun metric => [metricCode metric]) fun _ => True := by
  intro bytes metric rest
  simp only [bind_ok, exact_u8 _ _ _]
  constructor
  · rintro ⟨code, mid, ⟨-, rfl⟩, h⟩
    unfold metricFromCode at h
    split at h
    all_goals first
      | exact absurd h throw_ok
      | obtain ⟨rfl, rfl⟩ := pure_ok.mp h; exact ⟨trivial, rfl⟩
  · rintro ⟨-, rfl⟩
    exact ⟨_, rest, ⟨rfl, rfl⟩, by cases metric <;> rfl⟩

theorem finish_ok {bytes rest : Str} {u : Unit} :
    finish bytes = .ok (u, rest) ↔ bytes = [] ∧ rest = [] := by
  unfold finish
  split
  · grind
  · grind

/-! ## The two records -/

/-- What a lexical batch may hold, for its decoder. -/
def LexicalBatch.Bounded (batch : LexicalBatch) : Prop :=
  (1 ≤ batch.dimensions ∧ batch.dimensions ≤ maxDimensions) ∧ batch.texts.length ≤ maxTexts ∧
    ∀ text ∈ batch.texts, (asBytes text).length ≤ maxTextBytes

def LexicalVectors.Bounded (result : LexicalVectors) : Prop :=
  (1 ≤ result.dimensions ∧ result.dimensions ≤ maxDimensions) ∧
    result.vectors.length ≤ maxTexts ∧ ∀ vector ∈ result.vectors, vector.length = result.dimensions

theorem exact_dimensions :
    Exact readDimensions encodeU32 fun n => n < 2 ^ 32 ∧ ¬ (n = 0 ∨ n > maxDimensions) :=
  exact_u32.guard

theorem exact_count : Exact readCount encodeU32 fun n => n < 2 ^ 32 ∧ ¬ n > maxTexts :=
  exact_u32.guard

theorem bounds_lt {dimensions count : Nat} (hn : dimensions ≤ maxDimensions)
    (hcount : count ≤ maxTexts) : dimensions < 2 ^ 32 ∧ count < 2 ^ 32 := by
  unfold maxDimensions at hn
  unfold maxTexts at hcount
  omega

theorem decode_batch_ok {bytes : Str} {batch : LexicalBatch} :
    LexicalBatch.decode bytes = .ok batch ↔ batch.Bounded ∧ bytes = batch.encode := by
  simp only [LexicalBatch.decode, run'_ok, bind_ok, pure_ok, finish_ok, exact_magic _ _ _ _ _,
    exact_dimensions _ _ _, exact_count _ _ _, exact_each exact_text _ _ _ _ _]
  constructor
  · rintro ⟨_, _, _, ⟨-, rfl⟩, n, _, ⟨⟨-, hn⟩, rfl⟩, _, _, ⟨⟨-, hcount⟩, rfl⟩, texts, _,
      ⟨⟨rfl, htexts⟩, rfl⟩, _, _, ⟨rfl, rfl⟩, rfl, rfl⟩
    exact ⟨⟨by simp only; omega, Nat.le_of_not_lt hcount, htexts⟩, by simp [LexicalBatch.encode]⟩
  · rintro ⟨⟨hn, hcount, htexts⟩, rfl⟩
    obtain ⟨hwide, hmany⟩ := bounds_lt hn.2 hcount
    exact ⟨[], (), _, ⟨trivial, rfl⟩, _, _, ⟨⟨hwide, by omega⟩, rfl⟩, _, _,
      ⟨⟨hmany, by omega⟩, rfl⟩, _, [], ⟨⟨rfl, htexts⟩, (List.append_nil _).symm⟩, (), [],
      ⟨rfl, rfl⟩, rfl, rfl⟩

theorem decode_vectors_ok {bytes : Str} {result : LexicalVectors} :
    LexicalVectors.decode bytes = .ok result ↔ result.Bounded ∧ bytes = result.encode := by
  simp only [LexicalVectors.decode, run'_ok, bind_ok, pure_ok, finish_ok, exact_magic _ _ _ _ _,
    exact_dimensions _ _ _, exact_count _ _ _, exact_metric _ _ _,
    exact_each (fun _ => exact_each (fun _ => exact_word) 0 _) _ _ _ _ _]
  constructor
  · rintro ⟨_, _, _, ⟨-, rfl⟩, n, _, ⟨⟨-, hn⟩, rfl⟩, _, _, ⟨⟨-, hcount⟩, rfl⟩, metric, _,
      ⟨-, rfl⟩, vectors, _, ⟨⟨rfl, hvectors⟩, rfl⟩, _, _, ⟨rfl, rfl⟩, rfl, rfl⟩
    exact ⟨⟨by simp only; omega, Nat.le_of_not_lt hcount, fun vector hv => (hvectors vector hv).1⟩,
      by simp [LexicalVectors.encode]⟩
  · rintro ⟨⟨hn, hcount, hvectors⟩, rfl⟩
    obtain ⟨hwide, hmany⟩ := bounds_lt hn.2 hcount
    exact ⟨[], (), _, ⟨trivial, rfl⟩, _, _, ⟨⟨hwide, by omega⟩, rfl⟩, _, _,
      ⟨⟨hmany, by omega⟩, rfl⟩, _, _, ⟨trivial, rfl⟩, _, [],
      ⟨⟨rfl, fun vector hv => ⟨hvectors vector hv, fun _ _ => rfl⟩⟩, (List.append_nil _).symm⟩,
      (), [], ⟨rfl, rfl⟩, rfl, rfl⟩

/-- What is in bounds reads back, and the bytes that read as a record are the record's own. -/
theorem lexical_codec_canonical :
    (∀ batch : LexicalBatch, 1 ≤ batch.dimensions → batch.dimensions ≤ 4096 →
      batch.texts.length ≤ 1024 → (∀ text ∈ batch.texts, (asBytes text).length ≤ 65536) →
      LexicalBatch.decode batch.encode = .ok batch) ∧
    (∀ result : LexicalVectors, 1 ≤ result.dimensions → result.dimensions ≤ 4096 →
      result.vectors.length ≤ 1024 → (∀ vector ∈ result.vectors, vector.length = result.dimensions) →
      LexicalVectors.decode result.encode = .ok result) ∧
    (∀ bytes batch, LexicalBatch.decode bytes = .ok batch → batch.encode = bytes) ∧
    ∀ bytes result, LexicalVectors.decode bytes = .ok result → result.encode = bytes := by
  refine ⟨?_, ?_, ?_, ?_⟩
  · intro batch hfew hmost hcount htexts
    exact decode_batch_ok.mpr ⟨⟨⟨hfew, hmost⟩, hcount, htexts⟩, rfl⟩
  · intro result hfew hmost hcount hvectors
    exact decode_vectors_ok.mpr ⟨⟨⟨hfew, hmost⟩, hcount, hvectors⟩, rfl⟩
  · intro bytes batch h
    exact (decode_batch_ok.mp h).2.symm
  · intro bytes result h
    exact (decode_vectors_ok.mp h).2.symm

end Mere.Mesh

import FileProvider.Library.Reading
import FileProvider.Presentation.Cards
import Mathlib.Data.Int.Log
import Mathlib.Data.Rat.Floor
import Mathlib.Order.Bounds.Basic

/-!
# Wave forms

`wave` draws the first samples of a WAV file. It walks over the chunks of a text that can be cut
anywhere, with lengths that the text itself gives. `wave_safe` says that it reads nothing outside
the text, that its arithmetic neither leaves its width nor divides by zero, that the bars are those
of the chunk the walk found, and that it calls the wave form complete only when it has read the
whole of that chunk.

What a preview shows is said without the loops of the code: the walk is the relation `Reached` over
the headers of chunks, and the height of a bar is that of the greatest sample of its frames
(`IsPeak`). The lemmas about the readers then follow the code function by function, from `le32` to
`walk`, and each says what is read and which positions have been read by then.
-/

namespace FileProvider

open Bytes Reading

namespace Presentation

/-! ## Numbers -/

/-- The closest integer, and the even one of two. -/
def nearest (q : ℚ) : ℤ :=
  if q - ⌊q⌋ < 1 / 2 ∨ q - ⌊q⌋ = 1 / 2 ∧ ⌊q⌋ % 2 = 0 then ⌊q⌋ else ⌊q⌋ + 1

/-- The binary64 number closest to a number that is not negative, nor tiny or huge. -/
def rounded (q : ℚ) : ℚ :=
  if q = 0 then 0
  else nearest (q * 2 ^ (52 - Int.log 2 q)) / 2 ^ (52 - Int.log 2 q)

/-- `std::to_string` of a binary64 number that is not negative. -/
def fixed (q : ℚ) : Bytes :=
  let n := (nearest (q * 10 ^ 6)).toNat
  decimal (n / 10 ^ 6) ++ 46 :: places 6 (n % 10 ^ 6)

/-- `std::int16_t` of an unsigned number. -/
def int16 (w : UInt32) : ℤ :=
  let low : ℕ := w.toNat % 2 ^ 16
  if low < 2 ^ 15 then low else low - 2 ^ 16

/-- The binary32 number of its bits, when it is finite. -/
def float? (w : UInt32) : Option ℚ :=
  let exponent : ℕ := w.toNat / 2 ^ 23 % 256
  let fraction : ℕ := w.toNat % 2 ^ 23
  let magnitude : ℚ :=
    if exponent = 0 then fraction * 2 ^ (-149 : ℤ)
    else (2 ^ 23 + fraction) * 2 ^ ((exponent : ℤ) - 150)
  if exponent = 255 then none else some (if w.toNat < 2 ^ 31 then magnitude else -magnitude)

def le32 (v : View) (p : Nat) : Reading UInt32 := do
  let a ← v.byteAt p
  let b ← v.byteAt (p + 1)
  let b ← shiftLeft b.toUInt32 8
  let c ← v.byteAt (p + 2)
  let c ← shiftLeft c.toUInt32 16
  let d ← v.byteAt (p + 3)
  let d ← shiftLeft d.toUInt32 24
  pure (a.toUInt32 ||| b ||| c ||| d)

def le16 (v : View) (p : Nat) : Reading UInt32 := do
  let a ← v.byteAt p
  let b ← v.byteAt (p + 1)
  let b ← shiftLeft b.toUInt32 8
  pure (a.toUInt32 ||| b)

/-! ## Samples -/

/-- What the chunk `fmt ` says. -/
structure Format where
  format : UInt32
  channels : UInt32
  bits : UInt32
  sampleRate : UInt32
  align : UInt32

namespace Format

variable (f : Format)

def sampleBytes : Nat := f.bits.toNat / 8

/-- The samples that can be drawn: integers of 16 bits, and binary32 numbers. -/
def Readable : Prop := f.format = 1 ∧ f.bits = 16 ∨ f.format = 3 ∧ f.bits = 32

instance : Decidable f.Readable :=
  inferInstanceAs (Decidable (f.format = 1 ∧ f.bits = 16 ∨ f.format = 3 ∧ f.bits = 32))

end Format

/-- A sample at a position, when it is finite. -/
def sample (v : View) (f : Format) (p : Nat) : Reading (Option ℚ) :=
  if f.format = 1 then do
    let w ← le16 v p
    pure (some (int16 w / 32768))
  else do
    let w ← le32 v p
    pure (float? w)

/-- The peak after one more sample. -/
def louder (peak : ℚ) : Option ℚ → ℚ
  | some sample => max peak (min 1 |sample|)
  | none => peak

/-- The peak after the channels of a frame. -/
def framePeak (v : View) (f : Format) (data frame : Nat) (peak : ℚ) : Reading ℚ :=
  (List.range f.channels.toNat).foldlM (fun peak c => do
    let offset ← mul 64 frame f.align.toNat
    let channel ← mul 32 c f.sampleBytes
    let sample ← sample v f (data + offset + channel)
    pure (louder peak sample)) peak

/-- The peak of the frames of a bin. -/
def binPeak (v : View) (f : Format) (data frames bin : Nat) : Reading ℚ := do
  let first ← mul 64 bin frames
  let start := first / 232
  let next ← add 64 start 1
  let last ← mul 64 (bin + 1) frames
  let stop := max next (last / 232)
  (List.range (min stop frames - start)).foldlM
    (fun peak i => framePeak v f data (start + i) peak) 0

/-! ## Bars -/

/-- The bar of a bin. -/
def barText (bin : Nat) (h : ℤ) : Bytes :=
  ascii "<rect x=\"" ++ decimal (24 + bin * 2) ++ ascii "\" y=\"" ++ decimalInt (280 - h) ++
    ascii "\" width=\"1\" height=\"" ++ decimalInt (h * 2) ++ ascii "\" fill=\"#4475cb\"/>"

def bar (v : View) (f : Format) (data frames bin : Nat) : Reading Bytes := do
  let peak ← binPeak v f data frames bin
  pure (barText bin (max 1 ⌊peak * 144⌋))

/-- The texts over the bars. -/
def waveHead (name line : Bytes) : Bytes :=
  svgStart ++
    (ascii "<text x=\"24\" y=\"40\" font-family=\"sans-serif\" font-size=\"16\">" ++ xml name ++
      ascii "</text>") ++
    (ascii "<text x=\"24\" y=\"68\" font-family=\"sans-serif\" font-size=\"12\">" ++ xml line ++
      ascii "</text>")

/-- The line of a wave form's numbers. -/
def waveLine (seconds : Bytes) (f : Format) : Bytes :=
  seconds ++ ascii " s" ++ dot ++ decimal f.sampleRate.toNat ++ ascii " Hz" ++ dot ++
    decimal f.channels.toNat ++ ascii " channels"

/-- The preview of a chunk, and the details that say how much of it is drawn. -/
def draw (v : View) (details : FileDetails) (f : Format) (data length frames : Nat) :
    Reading (Option FilePreview × FileDetails) := do
  let scanned ← mul 64 frames f.align.toNat
  let scope := ascii (if scanned = length then "complete" else "leading-samples")
  let seconds := (details.properties.get? (ascii "durationSeconds")).getD []
  let svg ← (List.range 232).foldlM (fun svg bin => do
    let text ← bar v f data frames bin
    pure (svg ++ text)) (waveHead (details.name.take 120) (waveLine seconds f))
  pure (some ⟨ascii "image/svg+xml", ascii "audio", svg ++ ascii "</svg>", 512, 512⟩,
    { details with properties := details.properties.put (ascii "waveformScope") scope })

/-! ## Chunks -/

/-- The length of a chunk in seconds, after two divisions that are rounded. -/
def seconds (f : Format) (length : Nat) : Bytes :=
  fixed (rounded (rounded (length / f.sampleRate.toNat) / f.align.toNat))

/-- The length of a chunk in seconds, whose divisors must not be zero. -/
def duration (f : Format) (length : Nat) : Reading Bytes :=
  if f.sampleRate = 0 ∨ f.align = 0 then throw .zeroDivisor else pure (seconds f length)

/-- The details that a chunk of samples gives. -/
def described (details : FileDetails) (f : Format) (seconds : Bytes) : FileDetails :=
  { details with
    mimeType := ascii "audio/wav"
    properties := (((details.properties.put (ascii "sampleRate") (decimal f.sampleRate.toNat)).put
      (ascii "channels") (decimal f.channels.toNat)).put (ascii "durationSeconds") seconds).put
      (ascii "bitsPerSample") (decimal f.bits.toNat) }

/-- The chunk of the samples. -/
def dataChunk (v : View) (details : FileDetails) (f : Format) (data length : Nat) :
    Reading (Option FilePreview × FileDetails) := do
  let seconds ← duration f length
  let details := described details f seconds
  if ¬ f.Readable ∨ 64 < f.channels then pure (none, details)
  else do
    let width ← mul 32 f.channels.toNat f.sampleBytes
    if f.align.toNat ≠ width then pure (none, details)
    else do
      let rest ← sub v.size data
      let frames ← div (min length rest) f.align.toNat
      if frames = 0 then pure (none, details)
      else draw v details f data length frames

/-- The format after a chunk, which can be the chunk `fmt `. -/
def readFormat (v : View) (f : Format) (start data length : Nat) : Reading Format := do
  let tag ← v.substr start 4
  if tag = ascii "fmt " ∧ 16 ≤ length then do
    let last ← add 64 data 16
    if last ≤ v.size then do
      let format ← le16 v data
      let channels ← le16 v (data + 2)
      let sampleRate ← le32 v (data + 4)
      let align ← le16 v (data + 12)
      let bits ← le16 v (data + 14)
      pure ⟨format, channels, bits, sampleRate, align⟩
    else pure f
  else pure f

/-- Whether a chunk has samples, and lies in the file. -/
def isData (v : View) (details : FileDetails) (f : Format) (start data length : Nat) :
    Reading Bool := do
  let tag ← v.substr start 4
  if tag = ascii "data" ∧ f.channels ≠ 0 ∧ f.sampleRate ≠ 0 ∧ f.align ≠ 0 then do
    let rest ← sub details.size.toNat (min details.size.toNat data)
    pure (length ≤ rest)
  else pure false

/-- The loop over the chunks from a position on, which advances with every turn. -/
def walk (v : View) (details : FileDetails) : Nat → Format → Nat →
    Reading (Option FilePreview × FileDetails)
  | 0, _, _ => throw .endless
  | fuel + 1, f, start => do
      let data ← add 64 start 8
      if v.size < data then pure (none, details)
      else do
        let length ← le32 v (start + 4)
        let f ← readFormat v f start data length.toNat
        let found ← isData v details f start data length.toNat
        if found then dataChunk v details f data length.toNat
        else do
          let stop ← add 64 data length.toNat
          let next ← add 64 stop (length.toNat % 2)
          if v.size < next then pure (none, details) else walk v details fuel f next

def wave (v : View) (details : FileDetails) : Reading (Option FilePreview × FileDetails) :=
  if v.size < 12 then pure (none, details)
  else do
    let riff ← v.substr 0 4
    if riff ≠ ascii "RIFF" then pure (none, details)
    else do
      let form ← v.substr 8 4
      if form ≠ ascii "WAVE" then pure (none, details)
      else walk v details v.size ⟨0, 0, 0, 0, 0⟩ 12

/-! ## What a text holds -/

/-- The unsigned number of four bytes, the lowest first. -/
def word32 (bytes : Bytes) (p : Nat) : UInt32 :=
  (bytes.getD p 0).toUInt32 ||| (bytes.getD (p + 1) 0).toUInt32 <<< (8 : Nat).toUInt32 |||
    (bytes.getD (p + 2) 0).toUInt32 <<< (16 : Nat).toUInt32 |||
    (bytes.getD (p + 3) 0).toUInt32 <<< (24 : Nat).toUInt32

/-- The unsigned number of two bytes, the lowest first. -/
def word16 (bytes : Bytes) (p : Nat) : UInt32 :=
  (bytes.getD p 0).toUInt32 ||| (bytes.getD (p + 1) 0).toUInt32 <<< (8 : Nat).toUInt32

/-- The sample of a text at a position, when it is finite. -/
def sampleAt (bytes : Bytes) (f : Format) (p : Nat) : Option ℚ :=
  if f.format = 1 then some (int16 (word16 bytes p) / 32768) else float? (word32 bytes p)

/-- The format that is known behind the header of a chunk, which can be the chunk `fmt `. -/
def formatAfter (v : View) (f : Format) (start : Nat) : Format :=
  if (v.bytes.drop start).take 4 = ascii "fmt " ∧ 16 ≤ (word32 v.bytes (start + 4)).toNat ∧
      start + 24 ≤ v.size then
    { format := word16 v.bytes (start + 8)
      channels := word16 v.bytes (start + 10)
      bits := word16 v.bytes (start + 22)
      sampleRate := word32 v.bytes (start + 12)
      align := word16 v.bytes (start + 20) }
  else f

/-- Where the chunk behind that of a header begins: chunks have an even number of bytes. -/
def behind (v : View) (start : Nat) : Nat :=
  let length := (word32 v.bytes (start + 4)).toNat
  start + 8 + length + length % 2

/-- The headers of chunks, one behind the other from the first on, each with the format known where
it begins. -/
inductive Reached (v : View) : Format → Nat → Prop where
  | first : Reached v ⟨0, 0, 0, 0, 0⟩ 12
  | next {f : Format} {start : Nat} (h : Reached v f start) (hin : behind v start ≤ v.size) :
      Reached v (formatAfter v f start) (behind v start)

/-- A chunk of samples: the format known where it begins, where its bytes begin, and how many its
header gives it. -/
structure Chunk where
  format : Format
  data : Nat
  length : Nat

/-- The whole frames of a chunk that a text has. -/
def Chunk.frames (v : View) (c : Chunk) : Nat :=
  min c.length (v.size - c.data) / c.format.align.toNat

/-- A chunk of samples that the walk over a text comes to. -/
structure Found (v : View) (c : Chunk) : Prop where
  reached : Reached v c.format (c.data - 8)
  header : 8 ≤ c.data
  inside : c.data ≤ v.size
  tag : (v.bytes.drop (c.data - 8)).take 4 = ascii "data"
  length : c.length = (word32 v.bytes (c.data - 4)).toNat
  sampleRate : c.format.sampleRate ≠ 0
  align : c.format.align ≠ 0

/-! ## What is read -/

section

variable {v : View} {s t : List Nat} {p data frames : Nat} {f : Format}

/-- A 32-bit number within the file is read from its four bytes. -/
theorem reads_le32 (h : p + 4 ≤ v.size) :
    Reads v.size s (le32 v p)
      fun w t => w = word32 v.bytes p ∧ ∀ i, p ≤ i → i < p + 4 → i ∈ t := by
  unfold le32 word32
  refine .bind (.byteAt (by omega)) fun a t _ ha => ?_
  obtain ⟨rfl, rfl⟩ := ha
  refine .bind (.byteAt (by omega)) fun b t _ hb => ?_
  obtain ⟨rfl, rfl⟩ := hb
  refine .bind (.shiftLeft (by omega)) fun b t _ hb => ?_
  obtain ⟨rfl, rfl⟩ := hb
  refine .bind (.byteAt (by omega)) fun c t _ hc => ?_
  obtain ⟨rfl, rfl⟩ := hc
  refine .bind (.shiftLeft (by omega)) fun c t _ hc => ?_
  obtain ⟨rfl, rfl⟩ := hc
  refine .bind (.byteAt (by omega)) fun d t _ hd => ?_
  obtain ⟨rfl, rfl⟩ := hd
  refine .bind (.shiftLeft (by omega)) fun d t _ hd => ?_
  obtain ⟨rfl, rfl⟩ := hd
  refine .pure ⟨rfl, fun i hlo hhi => ?_⟩
  simp only [List.mem_cons]
  omega

/-- A 16-bit number within the file is read from its two bytes. -/
theorem reads_le16 (h : p + 2 ≤ v.size) :
    Reads v.size s (le16 v p)
      fun w t => w = word16 v.bytes p ∧ ∀ i, p ≤ i → i < p + 2 → i ∈ t := by
  unfold le16 word16
  refine .bind (.byteAt (by omega)) fun a t _ ha => ?_
  obtain ⟨rfl, rfl⟩ := ha
  refine .bind (.byteAt (by omega)) fun b t _ hb => ?_
  obtain ⟨rfl, rfl⟩ := hb
  refine .bind (.shiftLeft (by omega)) fun b t _ hb => ?_
  obtain ⟨rfl, rfl⟩ := hb
  refine .pure ⟨rfl, fun i hlo hhi => ?_⟩
  simp only [List.mem_cons]
  omega

/-- A sample is read from its own bytes, two or four of them. The formats that are drawn are the two
of the hypothesis, and each reads its own number of bytes. -/
theorem reads_sample (hf : f.Readable) (h : p + f.sampleBytes ≤ v.size) :
    Reads v.size s (sample v f p) fun x t =>
      x = sampleAt v.bytes f p ∧ ∀ i, p ≤ i → i < p + f.sampleBytes → i ∈ t := by
  unfold sample sampleAt
  rcases hf with ⟨hformat, hbits⟩ | ⟨hformat, hbits⟩
  · have hbytes : f.sampleBytes = 2 := by
      unfold Format.sampleBytes
      rw [hbits]
      rfl
    rw [hbytes] at h ⊢
    rw [if_pos hformat, if_pos hformat]
    refine .bind (reads_le16 h) fun w t _ ht => ?_
    obtain ⟨rfl, hread⟩ := ht
    exact .pure ⟨rfl, hread⟩
  · have hbytes : f.sampleBytes = 4 := by
      unfold Format.sampleBytes
      rw [hbits]
      rfl
    rw [hbytes] at h ⊢
    rw [hformat, if_neg (by decide), if_neg (by decide)]
    refine .bind (reads_le32 h) fun w t _ ht => ?_
    obtain ⟨rfl, hread⟩ := ht
    exact .pure ⟨rfl, hread⟩

/-- The first bytes of a chunk have been read. -/
def Seen (t : List Nat) (data count : Nat) : Prop := ∀ i, data ≤ i → i < data + count → i ∈ t

/-- What was seen stays seen. -/
theorem Seen.mono {count : Nat} (h : Seen s data count) (hsub : s ⊆ t) : Seen t data count :=
  fun i hlo hhi => hsub (h i hlo hhi)

/-- Who has seen a part has seen less of it. -/
theorem Seen.le {count count' : Nat} (h : Seen s data count) (hle : count' ≤ count) :
    Seen s data count' :=
  fun i hlo hhi => h i hlo (by omega)

/-- The data are seen part by part. -/
theorem Seen.append {count more : Nat} (h : Seen s data count)
    (hmore : ∀ i, data + count ≤ i → i < data + count + more → i ∈ s) :
    Seen s data (count + more) := by
  intro i hlo hhi
  rcases Nat.lt_or_ge i (data + count) with hlt | hge
  · exact h i hlo hlt
  · exact hmore i hge (by omega)

/-! ## Peaks -/

/-- Frames that lie in a text. -/
structure Frames (v : View) (f : Format) (data frames : Nat) : Prop where
  readable : f.Readable
  channels : f.channels.toNat ≤ 64
  align : f.align.toNat = f.channels.toNat * f.sampleBytes
  inside : data + frames * f.align.toNat ≤ v.size
  few : frames < 2 ^ 32

/-- The sample of a channel of a frame. -/
def sampleOf (bytes : Bytes) (f : Format) (data frame channel : Nat) : Option ℚ :=
  sampleAt bytes f (data + frame * f.align.toNat + channel * f.sampleBytes)

/-- The sizes of the finite samples at some places, of which none is more than one. -/
def Sounds (bytes : Bytes) (f : Format) (data : Nat) (places : Nat → Nat → Prop) : Set ℚ :=
  {x | ∃ frame channel sample, places frame channel ∧
    sampleOf bytes f data frame channel = some sample ∧ x = min 1 |sample|}

/-- The greatest size of a sample at some places, and zero where there is none. -/
def IsPeak (bytes : Bytes) (f : Format) (data : Nat) (places : Nat → Nat → Prop) (peak : ℚ) :
    Prop :=
  IsGreatest (insert 0 (Sounds bytes f data places)) peak

/-- The places of all channels of some frames. -/
def Between (f : Format) (first stop frame channel : Nat) : Prop :=
  first ≤ frame ∧ frame < stop ∧ channel < f.channels.toNat

variable {bytes : Bytes} {places places' : Nat → Nat → Prop} {peak : ℚ}

/-- A peak is a part of the whole scale. -/
theorem IsPeak.scaled (h : IsPeak bytes f data places peak) : 0 ≤ peak ∧ peak ≤ 1 := by
  rcases h.1 with rfl | ⟨frame, channel, sample, -, -, rfl⟩
  · exact ⟨le_rfl, zero_le_one⟩
  · exact ⟨le_min zero_le_one (abs_nonneg _), min_le_left _ _⟩

/-- Where there are no samples the peak is zero. -/
theorem isPeak_zero (h : ∀ frame channel, ¬ places frame channel) :
    IsPeak bytes f data places 0 := by
  refine ⟨Set.mem_insert _ _, ?_⟩
  rintro x (rfl | ⟨frame, channel, sample, hplace, -⟩)
  · exact le_rfl
  · exact absurd hplace (h frame channel)

/-- One more sample makes the peak as loud as it is. -/
theorem IsPeak.louder (h : IsPeak bytes f data places peak) {frame channel : Nat}
    (hplaces : ∀ i c, places' i c ↔ places i c ∨ (i = frame ∧ c = channel)) :
    IsPeak bytes f data places' (louder peak (sampleOf bytes f data frame channel)) := by
  have hold : insert 0 (Sounds bytes f data places) ⊆ insert 0 (Sounds bytes f data places') := by
    refine Set.insert_subset_insert ?_
    rintro x ⟨i, c, sample, hplace, hsample⟩
    exact ⟨i, c, sample, (hplaces i c).2 (.inl hplace), hsample⟩
  unfold Presentation.louder
  cases hnew : sampleOf bytes f data frame channel with
  | none =>
      refine ⟨hold h.1, ?_⟩
      rintro x (rfl | ⟨i, c, sample, hplace, hsample, rfl⟩)
      · exact h.2 (Set.mem_insert _ _)
      · rcases (hplaces i c).1 hplace with hplace | ⟨rfl, rfl⟩
        · exact h.2 (.inr ⟨i, c, sample, hplace, hsample, rfl⟩)
        · rw [hnew] at hsample
          cases hsample
  | some sample =>
      refine ⟨?_, ?_⟩
      · dsimp only
        rcases max_choice peak (min 1 |sample|) with hmax | hmax
        · rw [hmax]
          exact hold h.1
        · rw [hmax]
          exact .inr ⟨frame, channel, sample, (hplaces _ _).2 (.inr ⟨rfl, rfl⟩), hnew, rfl⟩
      · rintro x (rfl | ⟨i, c, sample', hplace, hsample, rfl⟩)
        · exact le_max_of_le_left h.scaled.1
        · rcases (hplaces i c).1 hplace with hplace | ⟨rfl, rfl⟩
          · exact le_max_of_le_left (h.2 (.inr ⟨i, c, sample', hplace, hsample, rfl⟩))
          · rw [hnew] at hsample
            obtain rfl := Option.some.inj hsample
            exact le_max_right _ _

/-- A sample of a readable format takes at most four bytes. -/
theorem sampleBytes_le (hf : f.Readable) : f.sampleBytes ≤ 4 := by
  unfold Format.sampleBytes
  rcases hf with ⟨-, hbits⟩ | ⟨-, hbits⟩
  · rw [hbits]
    decide
  · rw [hbits]
    decide

/-- A frame adds the samples of its channels to a peak, and its bytes to those that are read. -/
theorem reads_framePeak (h : Frames v f data frames) {first frame : Nat}
    (hfirst : first ≤ frame) (hframe : frame < frames)
    (hpeak : IsPeak v.bytes f data (Between f first frame) peak)
    (hseen : Seen s data (frame * f.align.toNat)) :
    Reads v.size s (framePeak v f data frame peak) fun q t =>
      IsPeak v.bytes f data (Between f first (frame + 1)) q ∧
        Seen t data ((frame + 1) * f.align.toNat) := by
  have hbytes := sampleBytes_le h.readable
  have hbound := v.bounded
  have hinside := h.inside
  have hnext : (frame + 1) * f.align.toNat ≤ frames * f.align.toNat :=
    Nat.mul_le_mul_right _ hframe
  rw [Nat.succ_mul] at hnext ⊢
  -- After some channels, the peak is that of the frames before and of these channels.
  let upTo (c i channel : Nat) : Prop := Between f first frame i channel ∨ i = frame ∧ channel < c
  have hloop : Reads v.size s (framePeak v f data frame peak) fun q t =>
      IsPeak v.bytes f data (upTo f.channels.toNat) q ∧
        Seen t data (frame * f.align.toNat + f.channels.toNat * f.sampleBytes) := by
    refine Reads.range (I := fun c q t => IsPeak v.bytes f data (upTo c) q ∧
      Seen t data (frame * f.align.toNat + c * f.sampleBytes)) ⟨?_, by simpa using hseen⟩ ?_
    · have hsame : upTo 0 = Between f first frame := by
        funext i channel
        exact propext ⟨fun h => h.resolve_right fun h => absurd h.2 (Nat.not_lt_zero _), .inl⟩
      rwa [hsame]
    intro c q t hc hq
    have hchannel : (c + 1) * f.sampleBytes ≤ f.channels.toNat * f.sampleBytes :=
      Nat.mul_le_mul_right _ hc
    rw [← h.align, Nat.succ_mul] at hchannel
    have hsmall : c * f.sampleBytes ≤ 64 * 4 :=
      Nat.mul_le_mul (by have := h.channels; omega) hbytes
    unfold View.size at hinside
    refine .bind (.mul (by omega)) fun offset t' _ ho => ?_
    obtain ⟨rfl, rfl⟩ := ho
    refine .bind (.mul (by omega)) fun channel t' _ hch => ?_
    obtain ⟨rfl, rfl⟩ := hch
    refine .bind (reads_sample h.readable (by unfold View.size; omega)) fun x t' hsub hx => ?_
    obtain ⟨rfl, hread⟩ := hx
    refine .pure ⟨hq.1.louder fun i channel => ?_, ?_⟩
    · simp only [upTo, Nat.lt_succ_iff_lt_or_eq]
      tauto
    · rw [Nat.succ_mul, ← Nat.add_assoc]
      refine (hq.2.mono hsub).append fun i hlo hhi => hread i ?_ ?_
      · omega
      · omega
  rw [← h.align] at hloop
  refine hloop.imp fun q t _ hq => ⟨?_, hq.2⟩
  have hsame : upTo f.channels.toNat = Between f first (frame + 1) := by
    funext i channel
    simp only [upTo, Between]
    exact propext (by omega)
  rw [← hsame]
  exact hq.1

/-- The first frame of a bin. -/
def binStart (frames bin : Nat) : Nat := bin * frames / 232

/-- The frame behind a bin, which has one frame at least. -/
def binStop (frames bin : Nat) : Nat :=
  min (max (binStart frames bin + 1) (binStart frames (bin + 1))) frames

/-- The peak of a bin is that of the frames between its bounds, all of which are seen. The bounds of
a bin follow from its number, and where a bin has no frame of its own it takes the next one. -/
theorem reads_binPeak (h : Frames v f data frames) {bin : Nat} (hbin : bin < 232)
    (hseen : Seen s data (binStart frames bin * f.align.toNat)) :
    Reads v.size s (binPeak v f data frames bin) fun q t =>
      IsPeak v.bytes f data (Between f (binStart frames bin) (binStop frames bin)) q ∧
        Seen t data (binStart frames (bin + 1) * f.align.toNat) := by
  have hfew := h.few
  have hfirst : bin * frames ≤ 231 * frames := Nat.mul_le_mul_right _ (by omega)
  have hlast : (bin + 1) * frames ≤ 232 * frames := Nat.mul_le_mul_right _ hbin
  unfold binStop binStart at *
  unfold binPeak
  refine .bind (.mul (by omega)) fun first t _ hf => ?_
  obtain ⟨rfl, rfl⟩ := hf
  refine .bind (.add (by omega)) fun next t _ hn => ?_
  obtain ⟨rfl, rfl⟩ := hn
  refine .bind (.mul (by omega)) fun last t _ hl => ?_
  obtain ⟨rfl, rfl⟩ := hl
  generalize hstart : bin * frames / 232 = start at *
  generalize hstop : min (max (start + 1) ((bin + 1) * frames / 232)) frames = stop
  refine (Reads.range (I := fun i q t => IsPeak v.bytes f data (Between f start (start + i)) q ∧
    Seen t data ((start + i) * f.align.toNat)) ⟨isPeak_zero ?_, hseen⟩ ?_).imp ?_
  · intro i channel hplace
    unfold Between at hplace
    omega
  · intro i q t hi hq
    rw [← Nat.add_assoc]
    exact reads_framePeak h (by omega) (by omega) hq.1 hq.2
  · intro q t _ hq
    have hend :
        start + (min (max (start + 1) ((bin + 1) * frames / 232)) frames - start) = stop := by
      omega
    rw [hend] at hq
    exact ⟨hq.1, hq.2.le (Nat.mul_le_mul_right _ (by omega))⟩

/-! ## Bars -/

/-- A bar of a height lies inside the card. -/
def Inside (bin : Nat) (h : ℤ) : Prop :=
  24 + (bin : ℤ) * 2 + 1 ≤ 512 ∧ 0 ≤ 280 - h ∧ 280 - h + h * 2 ≤ 512

/-- A bar of a bin and a height within the bounds lies in the picture. -/
theorem inside_bar {bin : Nat} {h : ℤ} (hbin : bin < 232) (hheight : 1 ≤ h ∧ h ≤ 144) :
    Inside bin h := by
  unfold Inside
  omega

/-- The texts of bars. -/
def barsText (heights : List ℤ) : Bytes :=
  heights.zipIdx.flatMap fun b => barText b.2 b.1

/-- The last bar is printed behind the others. -/
theorem barsText_append (heights : List ℤ) (h : ℤ) :
    barsText (heights ++ [h]) = barsText heights ++ barText heights.length h := by
  unfold barsText
  rw [List.zipIdx_append, List.flatMap_append]
  simp

/-- The bar of a bin is as high as the greatest sample of the bin's frames, but one at least, and
it lies inside the card. -/
structure Bar (bytes : Bytes) (f : Format) (data frames bin : Nat) (h : ℤ) : Prop where
  peak : ∃ peak, IsPeak bytes f data (Between f (binStart frames bin) (binStop frames bin)) peak ∧
    h = max 1 ⌊peak * 144⌋
  height : 1 ≤ h ∧ h ≤ 144
  inside : Inside bin h

/-- A bar is drawn for its bin, with a height from the peak of its frames. -/
theorem reads_bar (h : Frames v f data frames) {bin : Nat} (hbin : bin < 232)
    (hseen : Seen s data (binStart frames bin * f.align.toNat)) :
    Reads v.size s (bar v f data frames bin) fun text t =>
      (∃ height, Bar v.bytes f data frames bin height ∧ text = barText bin height) ∧
        Seen t data (binStart frames (bin + 1) * f.align.toNat) := by
  refine .bind (reads_binPeak h hbin hseen) fun q t _ hq => .pure ⟨⟨_, ?_, rfl⟩, hq.2⟩
  have hscaled := hq.1.scaled.2
  have hfloor : ⌊q * 144⌋ ≤ 144 := by
    refine Int.le_of_lt_add_one (Int.floor_lt.2 ?_)
    push_cast
    linarith
  have hheight : 1 ≤ max 1 ⌊q * 144⌋ ∧ max 1 ⌊q * 144⌋ ≤ 144 :=
    ⟨le_max_left _ _, max_le (by omega) hfloor⟩
  exact ⟨⟨q, hq.1, rfl⟩, hheight, inside_bar hbin hheight⟩

/-! ## Previews -/

/-- The preview of the wave form of a chunk: its head names the file and the numbers of the chunk,
and it has a bar for each of the 232 bins. -/
structure Drawn (v : View) (name : Bytes) (c : Chunk) (p : FilePreview) : Prop where
  mimeType : p.mimeType = ascii "image/svg+xml"
  kind : p.kind = ascii "audio"
  width : p.width = 512
  height : p.height = 512
  bytes : ∃ heights : List ℤ, heights.length = 232 ∧
    (∀ bin h, heights[bin]? = some h → Bar v.bytes c.format c.data (c.frames v) bin h) ∧
    p.bytes = waveHead (name.take 120) (waveLine (seconds c.format c.length) c.format)
      ++ barsText heights ++ ascii "</svg>"

/-- What a property says about the part of a chunk that is drawn. -/
def scope (d : FileDetails) : Option Bytes := d.properties.get? (ascii "waveformScope")

/-- A preview shows a chunk: it is drawn from the samples of the chunk, whose whole frames have been
read, and the details call it complete exactly if these frames are the chunk. Then the chunk lies in
the text, and every byte of it has been read. -/
structure Shows (v : View) (name : Bytes) (c : Chunk) (p : FilePreview) (d : FileDetails)
    (reads : List Nat) : Prop where
  drawn : Drawn v name c p
  scope : scope d = some (ascii "complete") ↔ c.frames v * c.format.align.toNat = c.length
  complete : Presentation.scope d = some (ascii "complete") →
    c.data + c.length ≤ v.size ∧ Seen reads c.data c.length

/-- The bars of a chunk are drawn from all its frames. The bins are drawn one after the other, and
together they have seen every frame of the chunk. -/
theorem reads_draw {c : Chunk} (h : Frames v c.format c.data (c.frames v)) {details : FileDetails}
    (hseconds : details.properties.get? (ascii "durationSeconds")
      = some (seconds c.format c.length)) :
    Reads v.size s (draw v details c.format c.data c.length (c.frames v)) fun r t =>
      ∃ p, r.1 = some p ∧ Shows v details.name c p r.2 t := by
  have hinside := h.inside
  have hbound := v.bounded
  unfold View.size at hinside
  refine .bind (.mul (by omega)) fun scanned t _ hs => ?_
  obtain ⟨rfl, rfl⟩ := hs
  dsimp only
  rw [hseconds, Option.getD_some]
  generalize hhead : waveHead (details.name.take 120)
    (waveLine (seconds c.format c.length) c.format) = head
  have hloop : Reads v.size t ((List.range 232).foldlM (fun svg bin => do
        let text ← bar v c.format c.data (c.frames v) bin
        pure (svg ++ text)) head) fun svg t =>
      (∃ heights : List ℤ, heights.length = 232 ∧ (∀ bin h, heights[bin]? = some h →
        Bar v.bytes c.format c.data (c.frames v) bin h) ∧ svg = head ++ barsText heights) ∧
        Seen t c.data (binStart (c.frames v) 232 * c.format.align.toNat) := by
    refine Reads.range (I := fun bin svg t =>
      (∃ heights : List ℤ, heights.length = bin ∧ (∀ bin h, heights[bin]? = some h →
        Bar v.bytes c.format c.data (c.frames v) bin h) ∧ svg = head ++ barsText heights) ∧
        Seen t c.data (binStart (c.frames v) bin * c.format.align.toNat))
      ⟨⟨[], rfl, fun _ _ hh => (by cases hh), (List.append_nil _).symm⟩, ?_⟩ ?_
    · intro i hlo hhi
      rw [binStart, Nat.zero_mul, Nat.zero_div, Nat.zero_mul] at hhi
      omega
    · intro bin svg t hbin hsvg
      obtain ⟨⟨heights, rfl, hheights, rfl⟩, hseen⟩ := hsvg
      refine .bind (reads_bar h hbin hseen) fun text t _ htext => ?_
      obtain ⟨⟨height, hbar, rfl⟩, hseen⟩ := htext
      refine .pure ⟨⟨heights ++ [height], by simp, fun bin' h' hh => ?_, ?_⟩, hseen⟩
      · rcases Nat.lt_or_ge bin' heights.length with hlt | hge
        · rw [List.getElem?_append_left hlt] at hh
          exact hheights bin' h' hh
        · rw [List.getElem?_append_right hge, List.getElem?_singleton] at hh
          split at hh
          · next hzero =>
              obtain rfl := Option.some.inj hh
              obtain rfl : bin' = heights.length := by omega
              exact hbar
          · cases hh
      · rw [barsText_append, List.append_assoc]
  refine .bind hloop fun svg t _ hsvg => .pure ?_
  obtain ⟨⟨heights, hcount, hheights, rfl⟩, hseen⟩ := hsvg
  have hdrawn : Drawn v details.name c ⟨ascii "image/svg+xml", ascii "audio",
      head ++ barsText heights ++ ascii "</svg>", 512, 512⟩ :=
    ⟨rfl, rfl, rfl, rfl, heights, hcount, hheights, by rw [hhead]⟩
  have hscope : (some (ascii (if c.frames v * c.format.align.toNat = c.length then "complete"
      else "leading-samples")) = some (ascii "complete"))
        ↔ c.frames v * c.format.align.toNat = c.length := by
    split
    · next heq => exact iff_of_true rfl heq
    · next hne => exact iff_of_false (by decide) hne
  refine ⟨_, rfl, hdrawn, ?_, ?_⟩
  · unfold Presentation.scope
    rw [Properties.get?_put, if_pos rfl]
    exact hscope
  · unfold Presentation.scope
    rw [Properties.get?_put, if_pos rfl, hscope]
    intro hscanned
    rw [binStart, Nat.mul_div_cancel_left _ (by omega), hscanned] at hseen
    rw [hscanned] at hinside
    exact ⟨hinside, hseen⟩

/-! ## Chunks -/

/-- What a result is: without a preview the details say nothing of a wave form that they did not say
before, and a preview shows the chunk that the walk found. -/
def Shown (v : View) (details : FileDetails) (r : Option FilePreview × FileDetails)
    (reads : List Nat) : Prop :=
  match r.1 with
  | none => scope r.2 = scope details
  | some p => ∃ c, Found v c ∧ Shows v details.name c p r.2 reads

/-- Describing the format does not widen what the details are about. -/
theorem scope_described (details : FileDetails) (f : Format) (seconds : Bytes) :
    scope (described details f seconds) = scope details := by
  unfold scope described
  dsimp only
  rw [Properties.get?_put, if_neg (by decide), Properties.get?_put, if_neg (by decide),
    Properties.get?_put, if_neg (by decide), Properties.get?_put, if_neg (by decide)]

/-- The described details name the duration. -/
theorem seconds_described (details : FileDetails) (f : Format) (seconds : Bytes) :
    (described details f seconds).properties.get? (ascii "durationSeconds") = some seconds := by
  unfold described
  dsimp only
  rw [Properties.get?_put, if_neg (by decide), Properties.get?_put, if_pos rfl]

/-- A chunk that is found is shown, unless its samples are not of a kind that is drawn. The duration
is described before anything else is looked at, and the bars follow only where the format can be
read and there are frames. -/
theorem reads_dataChunk {details : FileDetails} {c : Chunk} (hc : Found v c) :
    Reads v.size s (dataChunk v details c.format c.data c.length) (Shown v details) := by
  have hlength : c.length < 2 ^ 32 := hc.length ▸ (word32 v.bytes (c.data - 4)).toNat_lt
  have hpositive : 0 < c.format.align.toNat :=
    Nat.pos_of_ne_zero fun h => hc.align (UInt32.toNat_inj.1 h)
  have hduration : duration c.format c.length = pure (seconds c.format c.length) :=
    if_neg fun h => h.elim hc.sampleRate hc.align
  have hscope := scope_described details c.format (seconds c.format c.length)
  unfold dataChunk
  rw [hduration]
  refine .bind (.pure (Q := fun a t => a = seconds c.format c.length ∧ t = s) ⟨rfl, rfl⟩)
    fun a t _ ha => ?_
  obtain ⟨rfl, rfl⟩ := ha
  dsimp only
  split
  · exact .pure hscope
  · next hreadable =>
      obtain ⟨hreadable, hchannels⟩ := not_or.1 hreadable
      have hreadable := not_not.1 hreadable
      have hchannels : c.format.channels.toNat ≤ 64 :=
        UInt32.le_iff_toNat_le.1 (UInt32.not_lt.1 hchannels)
      have hproduct : c.format.channels.toNat * c.format.sampleBytes ≤ 64 * 4 :=
        Nat.mul_le_mul hchannels (sampleBytes_le hreadable)
      refine .bind (.mul (by omega)) fun width t _ hw => ?_
      obtain ⟨rfl, rfl⟩ := hw
      split
      · exact .pure hscope
      · next hwidth =>
          refine .bind (.sub hc.inside) fun rest t _ hr => ?_
          obtain ⟨rfl, rfl⟩ := hr
          refine .bind (.div (by omega)) fun frames t _ hf => ?_
          obtain ⟨rfl, rfl⟩ := hf
          split
          · exact .pure hscope
          · have hmul := Nat.div_mul_le_self (min c.length (v.size - c.data))
              c.format.align.toNat
            have hdiv := Nat.div_le_self (min c.length (v.size - c.data)) c.format.align.toNat
            have hin := hc.inside
            have hall : Frames v c.format c.data (c.frames v) :=
              ⟨hreadable, hchannels, not_not.1 hwidth, by unfold Chunk.frames; omega,
                by unfold Chunk.frames; omega⟩
            refine (reads_draw hall
              (seconds_described details c.format (seconds c.format c.length))).imp ?_
            intro r t _ hr
            obtain ⟨p, hp, hshows⟩ := hr
            unfold Shown
            rw [hp]
            exact ⟨c, hc, hshows⟩

/-- The format after a chunk is the one that its fields give. -/
theorem reads_readFormat {start : Nat} (h : start + 8 ≤ v.size) :
    Reads v.size s (readFormat v f start (start + 8) (word32 v.bytes (start + 4)).toNat)
      fun g _ => g = formatAfter v f start := by
  have hbound := v.bounded
  unfold readFormat formatAfter
  refine .bind (.substr 4 (by omega)) fun tag t _ htag => ?_
  subst htag
  split
  · next hguard =>
      unfold View.size at h
      refine .bind (.add (by omega)) fun last t _ hl => ?_
      obtain ⟨rfl, rfl⟩ := hl
      split
      · next hlast =>
          rw [if_pos ⟨hguard.1, hguard.2, by omega⟩]
          refine .bind (reads_le16 (by omega)) fun format t _ hformat => ?_
          refine .bind (reads_le16 (by omega)) fun channels t _ hchannels => ?_
          refine .bind (reads_le32 (by omega)) fun sampleRate t _ hrate => ?_
          refine .bind (reads_le16 (by omega)) fun align t _ halign => ?_
          refine .bind (reads_le16 (by omega)) fun bits t _ hbits => ?_
          refine .pure ?_
          rw [hformat.1, hchannels.1, hrate.1, halign.1, hbits.1]
      · next hlast =>
          rw [if_neg fun hall => hlast (by omega)]
          exact .pure rfl
  · next hguard =>
      rw [if_neg fun hall => hguard ⟨hall.1, hall.2.1⟩]
      exact .pure rfl

/-- The header of a chunk of samples leaves the format as it is. -/
theorem formatAfter_data {start : Nat} (h : (v.bytes.drop start).take 4 = ascii "data") :
    formatAfter v f start = f := by
  unfold formatAfter
  rw [h]
  exact if_neg fun hall => absurd hall.1 (by decide)

/-- A chunk that is drawn is a data chunk of a file with a format. -/
theorem reads_isData {details : FileDetails} {start length : Nat} (h : start + 8 ≤ v.size) :
    Reads v.size s (isData v details f start (start + 8) length) fun found _ => found = true →
      (v.bytes.drop start).take 4 = ascii "data" ∧ f.sampleRate ≠ 0 ∧ f.align ≠ 0 := by
  unfold isData
  refine .bind (.substr 4 (by omega)) fun tag t _ htag => ?_
  split
  · next hguard =>
      obtain ⟨hdata, -, hrate, halign⟩ := hguard
      refine .bind (.sub (Nat.min_le_left _ _)) fun rest t _ _ => .pure fun _ => ?_
      exact ⟨htag ▸ hdata, hrate, halign⟩
  · exact .pure fun h => absurd h Bool.false_ne_true

/-- The walk ends before its fuel does: every turn goes eight bytes on. It goes from header to
header, so the chunk it draws is one that is reached. -/
theorem reads_walk {details : FileDetails} {fuel start : Nat} (hreached : Reached v f start)
    (hstart : start ≤ v.size) (hfuel : v.size < start + fuel) :
    Reads v.size s (walk v details fuel f start) (Shown v details) := by
  have hbound := v.bounded
  induction fuel generalizing s f start with
  | zero => omega
  | succ fuel ih =>
      unfold walk
      refine .bind (.add (by unfold View.size at hstart; omega)) fun data t _ hd => ?_
      obtain ⟨rfl, rfl⟩ := hd
      split
      · exact .pure rfl
      · next hin =>
          refine .bind (reads_le32 (by omega)) fun w t _ hw => ?_
          obtain ⟨rfl, -⟩ := hw
          refine .bind (reads_readFormat (by omega)) fun g t _ hg => ?_
          subst hg
          refine .bind (reads_isData (by omega)) fun found t _ hfound => ?_
          split
          · next hdata =>
              obtain ⟨htag, hrate, halign⟩ := hfound hdata
              rw [formatAfter_data htag] at hrate halign ⊢
              have hinside : start + 8 ≤ v.size := not_lt.1 hin
              have hc : Found v ⟨f, start + 8, (word32 v.bytes (start + 4)).toNat⟩ :=
                ⟨hreached, Nat.le_add_left 8 start, hinside, htag, rfl, hrate, halign⟩
              exact reads_dataChunk hc
          · have hlength := (word32 v.bytes (start + 4)).toNat_lt
            unfold View.size at hstart hin
            refine .bind (.add (by omega)) fun stop t _ hs => ?_
            obtain ⟨rfl, rfl⟩ := hs
            refine .bind (.add (by omega)) fun next t _ hn => ?_
            obtain ⟨rfl, rfl⟩ := hn
            split
            · exact .pure rfl
            · next hnext => exact ih (hreached.next (not_lt.1 hnext)) (by omega) (by omega)

/-- The whole picture: it reads within the file, and shows what `Shown` says. -/
theorem reads_wave (details : FileDetails) :
    Reads v.size [] (wave v details) (Shown v details) := by
  unfold wave
  split
  · exact .pure rfl
  · next hsize =>
      refine .bind (.substr 4 (by omega)) fun riff t _ _ => ?_
      split
      · exact .pure rfl
      · refine .bind (.substr 4 (by omega)) fun form t _ _ => ?_
        split
        · exact .pure rfl
        · exact reads_walk .first (by omega) (by omega)

end

/-- **Wave forms are read safely.** For every text of bytes and all details, `wave` comes to a
result: it has no fault (no read outside the text, no arithmetic that leaves its width, no division
by zero, no shift past the width, no walk without an end), and every position it has read lies in
the text. A preview it gives shows the chunk of samples that the walk found: 232 bars of the heights
1 to 144, all inside the card, that are those of the chunk's samples. The details call it complete
exactly if the frames drawn are the whole chunk, and then every byte of that chunk has been read. -/
theorem wave_safe (v : View) (details : FileDetails) :
    ∃ r reads, wave v details [] = .ok (r, reads) ∧ (∀ i ∈ reads, i < v.bytes.length) ∧
      Shown v details r reads := by
  obtain ⟨r, reads, hrun, -, hinside, hshown⟩ := reads_wave details
  exact ⟨r, reads, hrun, fun i hi => (hinside i hi).resolve_left List.not_mem_nil, hshown⟩

/-! ### A file of one frame -/

/-- A file of one channel and one sample of 16 bits. -/
def sampleWave : View where
  bytes := ascii "RIFF" ++ [38, 0, 0, 0] ++ ascii "WAVEfmt " ++
    [16, 0, 0, 0, 1, 0, 1, 0, 64, 31, 0, 0, 128, 62, 0, 0, 2, 0, 16, 0] ++ ascii "data" ++
    [2, 0, 0, 0, 255, 127]
  bounded := by decide

/-- The details of that file, whose name has a sign of markup. -/
def waveDetails : FileDetails := ⟨ascii "a<b", [], [], 46, 0, ⟨[], Properties.ascending_nil⟩⟩

/-- The file is drawn as a complete wave form. -/
theorem wave_sampleWave : ∃ p d reads, wave sampleWave waveDetails [] = .ok ((some p, d), reads) ∧
    scope d = some (ascii "complete") := by
  have hcomplete : (wave sampleWave waveDetails []).toOption.any (fun r =>
      r.1.1.isSome && decide (scope r.1.2 = some (ascii "complete"))) = true := by decide +kernel
  cases hrun : wave sampleWave waveDetails [] with
  | error e =>
      rw [hrun] at hcomplete
      cases hcomplete
  | ok r =>
      rw [hrun] at hcomplete
      obtain ⟨hsome, hscope⟩ := Bool.and_eq_true_iff.1 hcomplete
      obtain ⟨p, hp⟩ := Option.isSome_iff_exists.1 hsome
      exact ⟨p, r.1.2, r.2, by rw [← hp], of_decide_eq_true hscope⟩

/-- The preview of the file shows its chunk: the chunk lies in the file, and both bytes of its
sample have been read. -/
theorem wave_safe_sample : ∃ p d reads c,
    wave sampleWave waveDetails [] = .ok ((some p, d), reads) ∧
    Found sampleWave c ∧ Shows sampleWave waveDetails.name c p d reads ∧
    scope d = some (ascii "complete") ∧ c.data + c.length ≤ sampleWave.size ∧
    Seen reads c.data c.length := by
  obtain ⟨p, d, reads, hrun, hscope⟩ := wave_sampleWave
  obtain ⟨r, reads', hrun', -, hshown⟩ := wave_safe sampleWave waveDetails
  rw [hrun] at hrun'
  cases hrun'
  obtain ⟨c, hfound, hshows⟩ := hshown
  exact ⟨p, d, reads, c, hrun, hfound, hshows, hscope, hshows.complete hscope⟩

end Presentation

end FileProvider

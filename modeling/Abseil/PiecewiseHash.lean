import Abseil.ByteBuffer

/-!
# Hashing in pieces

`combine_contiguous` mixes a string into a hash state, long strings in chunks of `1024` bytes.
`PiecewiseCombiner` does the same with a string that comes in pieces : it keeps what does not fill a
chunk in a buffer. The functions that mix one block are parameters (`BlockHashes`).

A chunk in front of a string can be mixed first (`combineContiguousImpl_append`). So after any
pieces the state is that of the full chunks, and the buffer holds the rest (`Fed`).
-/

namespace Abseil.PiecewiseHash

open List ByteBuffer

variable {σ : Type}

/-! ## `CombineContiguousImpl` -/

/-- `PiecewiseChunkSize`. -/
def piecewiseChunkSize : ℕ := 1024

/-- The functions that mix a block into the state. The length of the block goes into the state
before `small`, `from9To16` and `from17To32`. -/
structure BlockHashes (σ : Type) where
  /-- `CombineSmallContiguousImpl`. -/
  small : σ → List UInt8 → σ
  /-- `CombineContiguousImpl9to16`. -/
  from9To16 : σ → List UInt8 → σ
  /-- `CombineContiguousImpl17to32`. -/
  from17To32 : σ → List UInt8 → σ
  /-- `CombineContiguousImpl` of at most `32` bytes with CRC instructions. -/
  crc32 : σ → List UInt8 → σ
  /-- `HashBlockOn32Bit`. -/
  blockOn32Bit : σ → List UInt8 → σ
  /-- `HashBlockOn64Bit`. -/
  blockOn64Bit : σ → List UInt8 → σ

/-- The implementations of `CombineContiguousImpl`. -/
inductive Platform
  | on32Bit
  | on64Bit
  | on64BitWithCrc32

/-- The function for the platform. -/
def hashBlock (h : BlockHashes σ) : Platform → σ → List UInt8 → σ
  | .on32Bit => h.blockOn32Bit
  | .on64Bit => h.blockOn64Bit
  | .on64BitWithCrc32 => h.blockOn64Bit

/-- The loop of `SplitAndCombineOn32Bit` and `SplitAndCombineOn64Bit` : the state and the bytes that
are left. -/
def splitLoop (f : σ → List UInt8 → σ) (state : σ) (data : List UInt8) : σ × List UInt8 :=
  if piecewiseChunkSize ≤ data.length then
    splitLoop f (f state (data.take piecewiseChunkSize)) (data.drop piecewiseChunkSize)
  else (state, data)
termination_by data.length
decreasing_by
  rw [length_drop, piecewiseChunkSize] at *
  omega

theorem splitLoop_length_lt (f : σ → List UInt8 → σ) (state : σ) (data : List UInt8) :
    (splitLoop f state data).2.length < piecewiseChunkSize := by
  fun_induction splitLoop f state data with
  | case1 state data h ih => exact ih
  | case2 state data h => exact not_le.1 h

mutual

/-- `CombineContiguousImpl`. -/
def combineContiguousImpl (h : BlockHashes σ) (p : Platform) (state : σ) (data : List UInt8) : σ :=
  match p with
  | .on32Bit =>
    if data.length ≤ 8 then h.small state data else combineLargeContiguousImpl h .on32Bit state data
  | .on64Bit =>
    if data.length ≤ 8 then h.small state data
    else if data.length ≤ 16 then h.from9To16 state data
    else if data.length ≤ 32 then h.from17To32 state data
    else combineLargeContiguousImpl h .on64Bit state data
  | .on64BitWithCrc32 =>
    if data.length > 32 then combineLargeContiguousImpl h .on64BitWithCrc32 state data
    else h.crc32 state data
termination_by if data.length ≤ piecewiseChunkSize then 1 else 4
decreasing_by all_goals split_ifs <;> omega

/-- `CombineLargeContiguousImplOn32BitLengthGt8`, and
`CombineLargeContiguousImplOn64BitLengthGt32`. -/
def combineLargeContiguousImpl (h : BlockHashes σ) (p : Platform) (state : σ)
    (data : List UInt8) : σ :=
  if data.length ≤ piecewiseChunkSize then hashBlock h p state data
  else splitAndCombine h p state data
termination_by if data.length ≤ piecewiseChunkSize then 0 else 3
decreasing_by
  rw [if_neg (by assumption)]
  omega

/-- `SplitAndCombineOn32Bit` and `SplitAndCombineOn64Bit`. -/
def splitAndCombine (h : BlockHashes σ) (p : Platform) (state : σ) (data : List UInt8) : σ :=
  let r := splitLoop (hashBlock h p) state data
  if r.2.length = 0 then r.1 else combineContiguousImpl h p r.1 r.2
termination_by 2
decreasing_by
  -- less than a chunk is left, which is not split again
  rw [if_pos (splitLoop_length_lt _ _ _).le]
  omega

end

/-! ## `PiecewiseCombiner` -/

/-- `PiecewiseCombiner`. -/
structure PiecewiseCombiner where
  buf : List UInt8
  position : ℕ
  addedSomething : Bool

namespace PiecewiseCombiner

/-- The completion of a buffer that is partially filled : the state, the buffer and the data that is
left. -/
def completeBuffer (h : BlockHashes σ) (p : Platform) (c : PiecewiseCombiner) (state : σ)
    (data : List UInt8) : Option (σ × List UInt8 × List UInt8) :=
  if c.position ≠ 0 then do
    let bytesNeeded := piecewiseChunkSize - c.position
    if data.length < bytesNeeded then none
    else
      let buf ← put c.buf c.position (data.take bytesNeeded)
      return (combineContiguousImpl h p state (buf.take piecewiseChunkSize), buf,
        data.drop bytesNeeded)
  else some (state, c.buf, data)

/-- `add_buffer`. -/
def addBuffer (h : BlockHashes σ) (p : Platform) (c : PiecewiseCombiner) (state : σ)
    (data : List UInt8) : Option (PiecewiseCombiner × σ) :=
  if c.position + data.length < piecewiseChunkSize then do
    let buf ← put c.buf c.position data
    return (⟨buf, c.position + data.length, c.addedSomething⟩, state)
  else do
    let (state, buf, data) ← completeBuffer h p c state data
    -- the chunks that need no copy
    let r := splitLoop (combineContiguousImpl h p) state data
    let buf ← put buf 0 r.2
    return (⟨buf, r.2.length, true⟩, r.1)

/-- `finalize`. -/
def finalize (h : BlockHashes σ) (p : Platform) (c : PiecewiseCombiner) (state : σ) : σ :=
  if c.addedSomething = true ∧ c.position = 0 then state
  else combineContiguousImpl h p state (c.buf.take c.position)

/-- `add_buffer` for one piece after the other. -/
def addBuffers (h : BlockHashes σ) (p : Platform) : PiecewiseCombiner → σ → List (List UInt8) →
    Option (PiecewiseCombiner × σ)
  | c, state, [] => some (c, state)
  | c, state, piece :: pieces => do
    let (c, state) ← addBuffer h p c state piece
    addBuffers h p c state pieces

end PiecewiseCombiner

/-! ## Chunks in front -/

section

variable (h : BlockHashes σ) (p : Platform) {data : List UInt8}

/-- More bytes than the short cases are for. -/
theorem combineContiguousImpl_large (hlen : 32 < data.length) (state : σ) :
    combineContiguousImpl h p state data = combineLargeContiguousImpl h p state data := by
  cases p with
  | on32Bit => rw [combineContiguousImpl, if_neg (by omega)]
  | on64Bit => simp (disch := omega) only [combineContiguousImpl, if_neg]
  | on64BitWithCrc32 => rw [combineContiguousImpl, if_pos (by omega)]

variable {chunk : List UInt8}

theorem combineContiguousImpl_chunk (hlen : chunk.length = piecewiseChunkSize) (state : σ) :
    combineContiguousImpl h p state chunk = hashBlock h p state chunk := by
  have h32 : 32 < chunk.length := by
    rw [hlen, piecewiseChunkSize]
    omega
  rw [combineContiguousImpl_large h p h32, combineLargeContiguousImpl, if_pos hlen.le]

theorem splitLoop_append (f : σ → List UInt8 → σ) (hlen : chunk.length = piecewiseChunkSize)
    (state : σ) (rest : List UInt8) :
    splitLoop f state (chunk ++ rest) = splitLoop f (f state chunk) rest := by
  rw [splitLoop, if_pos (by rw [length_append]; omega), ← hlen, take_left, drop_left]

theorem splitLoop_of_lt (f : σ → List UInt8 → σ) (data : List UInt8)
    (hlen : data.length < piecewiseChunkSize) (state : σ) :
    splitLoop f state data = (state, data) := by
  rw [splitLoop, if_neg (not_le.2 hlen)]

/-- What is split is mixed chunk by chunk, also if it is not longer than a chunk. -/
theorem splitAndCombine_eq (hne : data ≠ []) (state : σ) :
    splitAndCombine h p state data = combineContiguousImpl h p state data := by
  have hpos := length_pos_iff.2 hne
  rcases lt_trichotomy data.length piecewiseChunkSize with hlt | heq | hgt
  · rw [splitAndCombine, splitLoop_of_lt _ data hlt]
    dsimp only
    rw [if_neg (by omega)]
  · have hloop := splitLoop_append (hashBlock h p) heq state []
    rw [append_nil, splitLoop_of_lt _ [] (by decide)] at hloop
    rw [combineContiguousImpl_chunk h p heq, splitAndCombine, hloop]
    rfl
  · have h32 : 32 < data.length := by
      rw [piecewiseChunkSize] at hgt
      omega
    rw [combineContiguousImpl_large h p h32, combineLargeContiguousImpl, if_neg (by omega)]

/-- A chunk in front of more bytes may be mixed first. -/
theorem combineContiguousImpl_append {rest : List UInt8} (hlen : chunk.length = piecewiseChunkSize)
    (hne : rest ≠ []) (state : σ) : combineContiguousImpl h p state (chunk ++ rest)
      = combineContiguousImpl h p (hashBlock h p state chunk) rest := by
  have hne' : chunk ++ rest ≠ [] := by simp [hne]
  simp only [← splitAndCombine_eq h p hne', ← splitAndCombine_eq h p hne, splitAndCombine,
    splitLoop_append _ hlen]

/-- All chunks in front of more bytes may be mixed first. -/
theorem combineContiguousImpl_flatten {tail : List UInt8} : ∀ {chunks : List (List UInt8)},
    (∀ c ∈ chunks, c.length = piecewiseChunkSize) → tail ≠ [] ∨ chunks = [] → ∀ state,
    combineContiguousImpl h p state (chunks.flatten ++ tail)
      = combineContiguousImpl h p (chunks.foldl (hashBlock h p) state) tail
  | [], _, _, _ => rfl
  | c :: chunks, hlen, htail, state => by
    have htail' : tail ≠ [] := htail.resolve_right (by simp)
    obtain ⟨hc, hchunks⟩ := forall_mem_cons.1 hlen
    rw [flatten_cons, append_assoc, combineContiguousImpl_append h p hc (by simp [htail']),
      combineContiguousImpl_flatten hchunks (.inl htail'), foldl_cons]

/-- Nothing is left behind the last chunk. -/
theorem combineContiguousImpl_chunks : ∀ {chunks : List (List UInt8)},
    (∀ c ∈ chunks, c.length = piecewiseChunkSize) → chunks ≠ [] → ∀ state,
    combineContiguousImpl h p state chunks.flatten = chunks.foldl (hashBlock h p) state
  | [], _, hne, _ => absurd rfl hne
  | [c], hlen, _, state => by
    rw [flatten_cons, flatten_nil, append_nil,
      combineContiguousImpl_chunk h p (hlen c mem_cons_self)]
    rfl
  | c :: d :: chunks, hlen, _, state => by
    obtain ⟨hc, hchunks⟩ := forall_mem_cons.1 hlen
    have hd : d ≠ [] := ne_nil_of_length_pos (by
      rw [hchunks d mem_cons_self, piecewiseChunkSize]
      omega)
    rw [flatten_cons, combineContiguousImpl_append h p hc (by simp [hd]),
      combineContiguousImpl_chunks hchunks (by simp)]
    rfl

/-- The chunks that the loop mixes. -/
theorem splitLoop_spec (f : σ → List UInt8 → σ) (state : σ) (data : List UInt8) :
    ∃ chunks, (∀ c ∈ chunks, c.length = piecewiseChunkSize) ∧
      data = chunks.flatten ++ (splitLoop f state data).2 ∧
      (splitLoop f state data).1 = chunks.foldl f state ∧
      (piecewiseChunkSize ≤ data.length → chunks ≠ []) := by
  fun_induction splitLoop f state data with
  | case1 state data hle ih =>
    obtain ⟨chunks, hlen, hdata, hstate, -⟩ := ih
    refine ⟨data.take piecewiseChunkSize :: chunks, ?_, ?_, hstate, fun _ => by simp⟩
    · exact forall_mem_cons.2 ⟨length_take_of_le hle, hlen⟩
    · rw [flatten_cons, append_assoc, ← hdata, take_append_drop]
  | case2 state data hlt => exact ⟨[], by simp, rfl, rfl, fun hle => absurd hle hlt⟩

/-! ## The combiner -/

/-- The combiner and the state after the bytes `input`, from `start` on : the full chunks are in the
state and the rest is in the buffer. -/
structure Fed (start : σ) (input : List UInt8) (c : PiecewiseCombiner) (state : σ) : Prop where
  size : c.buf.length = piecewiseChunkSize
  position_lt : c.position < piecewiseChunkSize
  chunks : ∃ chunks : List (List UInt8), (∀ k ∈ chunks, k.length = piecewiseChunkSize) ∧
    input = chunks.flatten ++ c.buf.take c.position ∧
    state = chunks.foldl (hashBlock h p) start ∧ (c.addedSomething = true ↔ chunks ≠ [])

theorem put_spec (buf bytes : List UInt8) (pos : ℕ) (hfit : pos + bytes.length ≤ buf.length) :
    ∃ buf', put buf pos bytes = some buf' ∧ buf'.length = buf.length ∧
      buf'.take (pos + bytes.length) = buf.take pos ++ bytes := by
  obtain ⟨buf', hput, hw⟩ := put_written buf bytes [] pos (by simpa using hfit)
  rw [append_nil] at hput
  exact ⟨buf', hput, hw.length_eq, hw.take_eq⟩

theorem foldl_combine {chunks : List (List UInt8)}
    (hlen : ∀ c ∈ chunks, c.length = piecewiseChunkSize) (state : σ) :
    chunks.foldl (combineContiguousImpl h p) state = chunks.foldl (hashBlock h p) state := by
  induction chunks generalizing state with
  | nil => rfl
  | cons c chunks ih =>
    obtain ⟨hc, hchunks⟩ := forall_mem_cons.1 hlen
    rw [foldl_cons, foldl_cons, combineContiguousImpl_chunk h p hc, ih hchunks]

variable {c : PiecewiseCombiner}

/-- A partially filled buffer is completed to a chunk. -/
theorem completeBuffer_spec (state : σ) (hsize : c.buf.length = piecewiseChunkSize)
    (hpos : c.position < piecewiseChunkSize)
    (hlen : piecewiseChunkSize ≤ c.position + data.length) :
    ∃ chunks buf data',
      (∀ k ∈ chunks, k.length = piecewiseChunkSize) ∧ buf.length = piecewiseChunkSize ∧
      c.buf.take c.position ++ data = chunks.flatten ++ data' ∧
      (chunks = [] → piecewiseChunkSize ≤ data'.length) ∧
      c.completeBuffer h p state data = some (chunks.foldl (hashBlock h p) state, buf, data') := by
  rw [PiecewiseCombiner.completeBuffer]
  by_cases h0 : c.position = 0
  · rw [if_neg (not_not.2 h0)]
    refine ⟨[], c.buf, data, by simp, hsize, by simp [h0], fun _ => by omega, rfl⟩
  rw [if_pos h0]
  have hneed : (data.take (piecewiseChunkSize - c.position)).length
      = piecewiseChunkSize - c.position := length_take_of_le (by omega)
  obtain ⟨buf, hput, hbuf, htake⟩ := put_spec c.buf
    (data.take (piecewiseChunkSize - c.position)) c.position (by omega)
  rw [hneed, Nat.add_sub_cancel' hpos.le] at htake
  have hfull : (buf.take piecewiseChunkSize).length = piecewiseChunkSize :=
    length_take_of_le (by omega)
  refine ⟨[buf.take piecewiseChunkSize], buf, data.drop (piecewiseChunkSize - c.position), ?_,
    by omega, ?_, by simp, ?_⟩
  · intro k hk
    rwa [mem_singleton.1 hk]
  · rw [flatten_cons, flatten_nil, append_nil, htake, append_assoc, take_append_drop]
  · rw [if_neg (by omega), hput]
    dsimp only [Option.bind_eq_bind, Option.bind_some]
    rw [combineContiguousImpl_chunk h p hfull]
    rfl

variable {start : σ}

/-- One piece. -/
theorem Fed.addBuffer {state : σ} {input : List UInt8} (hfed : Fed h p start input c state)
    (data : List UInt8) : ∃ c' state', c.addBuffer h p state data = some (c', state') ∧
      Fed h p start (input ++ data) c' state' := by
  obtain ⟨chunks, hchunks, hinput, hstate, hadded⟩ := hfed.chunks
  have hsize := hfed.size
  have hpos := hfed.position_lt
  rw [PiecewiseCombiner.addBuffer]
  split_ifs with hlt
  · obtain ⟨buf, hput, hbuf, htake⟩ := put_spec c.buf data c.position (by omega)
    refine ⟨⟨buf, c.position + data.length, c.addedSomething⟩, state, by rw [hput]; rfl, ?_, hlt,
      chunks, hchunks, ?_, hstate, hadded⟩
    · exact hbuf.trans hsize
    · rw [htake, hinput, append_assoc]
  obtain ⟨first, buf, rest, hfirst, hbuf, hrest, hsome, hcomplete⟩ := completeBuffer_spec h p
    state hsize hpos (not_lt.1 hlt)
  rw [hcomplete]
  dsimp only [Option.bind_eq_bind, Option.bind_some]
  obtain ⟨more, hmore, hdata, hloop, hmore'⟩ := splitLoop_spec (combineContiguousImpl h p)
    (first.foldl (hashBlock h p) state) rest
  have hleft := splitLoop_length_lt (combineContiguousImpl h p)
    (first.foldl (hashBlock h p) state) rest
  rw [foldl_combine h p hmore] at hloop
  generalize splitLoop (combineContiguousImpl h p) (first.foldl (hashBlock h p) state) rest = r
    at hdata hloop hleft ⊢
  obtain ⟨buf', hput, hbuf', htake⟩ := put_spec buf r.2 0 (by omega)
  rw [zero_add, take_zero, nil_append] at htake
  refine ⟨⟨buf', r.2.length, true⟩, r.1, by rw [hput]; rfl, hbuf'.trans hbuf, hleft,
    chunks ++ (first ++ more), ?_, ?_, ?_, ?_⟩
  · exact forall_mem_append.2 ⟨hchunks, forall_mem_append.2 ⟨hfirst, hmore⟩⟩
  · rw [htake, hinput, append_assoc, hrest, hdata]
    simp
  · rw [hloop, hstate, foldl_append, foldl_append]
  · refine iff_of_true rfl fun hnil => ?_
    obtain ⟨-, hnil⟩ := append_eq_nil_iff.1 hnil
    obtain ⟨hf, hm⟩ := append_eq_nil_iff.1 hnil
    exact hmore' (hsome hf) hm

/-- All pieces. -/
theorem Fed.addBuffers : ∀ pieces {input : List UInt8}
    {c : PiecewiseCombiner} {state : σ}, Fed h p start input c state →
    ∃ c' state', c.addBuffers h p state pieces = some (c', state') ∧
      Fed h p start (input ++ pieces.flatten) c' state'
  | [], input, c, state, hfed => ⟨c, state, rfl, by simpa using hfed⟩
  | piece :: pieces, input, c, state, hfed => by
    obtain ⟨c1, state1, h1, hfed1⟩ := hfed.addBuffer h p piece
    obtain ⟨c2, state2, h2, hfed2⟩ := Fed.addBuffers pieces hfed1
    refine ⟨c2, state2, ?_, by simpa using hfed2⟩
    rwa [PiecewiseCombiner.addBuffers, h1]

theorem Fed.finalize {state : σ} {input : List UInt8} (hfed : Fed h p start input c state) :
    c.finalize h p state = combineContiguousImpl h p start input := by
  obtain ⟨chunks, hchunks, rfl, rfl, hadded⟩ := hfed.chunks
  have hlen : (c.buf.take c.position).length = c.position :=
    length_take_of_le (by rw [hfed.size]; exact hfed.position_lt.le)
  rw [PiecewiseCombiner.finalize]
  split_ifs with hend
  · rw [hend.2, take_zero, append_nil, combineContiguousImpl_chunks h p hchunks (hadded.1 hend.1)]
  rw [combineContiguousImpl_flatten h p hchunks]
  by_cases hne : chunks = []
  · exact .inr hne
  · refine .inl (ne_nil_of_length_pos ?_)
    have : c.position ≠ 0 := fun h0 => hend ⟨hadded.2 hne, h0⟩
    omega

end

/-- Hashing a string in pieces is hashing it as a whole. -/
theorem piecewise_contiguous (h : BlockHashes σ) (p : Platform) (start : σ)
    (buf : List UInt8) (hbuf : buf.length = piecewiseChunkSize) (pieces : List (List UInt8)) :
    ∃ c state, PiecewiseCombiner.addBuffers h p ⟨buf, 0, false⟩ start pieces = some (c, state) ∧
      c.finalize h p state = combineContiguousImpl h p start pieces.flatten := by
  have hfed : Fed h p start [] ⟨buf, 0, false⟩ start :=
    ⟨hbuf, Nat.zero_lt_succ _, [], by simp, by simp, rfl, by simp⟩
  obtain ⟨c, state, hadd, hfed'⟩ := hfed.addBuffers h p pieces
  exact ⟨c, state, hadd, hfed'.finalize⟩

/-- A hash that counts its blocks. -/
def countBlocks : BlockHashes ℕ :=
  ⟨fun n _ => n + 1, fun n _ => n + 1, fun n _ => n + 1, fun n _ => n + 1, fun n _ => n + 1,
    fun n _ => n + 1⟩

/-- A piece that fills a chunk, with nothing in front of it or behind it. -/
theorem piecewise_contiguous_chunk : ∃ c state,
    PiecewiseCombiner.addBuffers countBlocks .on64Bit ⟨replicate 1024 0, 0, false⟩ 0
      [[], replicate 1024 7, []] = some (c, state) ∧
    c.finalize countBlocks .on64Bit state = combineContiguousImpl countBlocks .on64Bit 0
      [[], replicate 1024 7, []].flatten :=
  piecewise_contiguous countBlocks .on64Bit 0 (replicate 1024 0) length_replicate
    [[], replicate 1024 7, []]

end Abseil.PiecewiseHash

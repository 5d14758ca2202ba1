import LedgerVcs.Format.Codec
import Mathlib.Data.Int.Bitwise

set_option autoImplicit false

/-! Content-defined chunking. -/

namespace LedgerVcs

open Wire (Bytes)

/-- `b"ledger.cdc.gear.v1"` -/
def GEAR_DOMAIN : Bytes :=
  [0x6c, 0x65, 0x64, 0x67, 0x65, 0x72, 0x2e, 0x63, 0x64, 0x63, 0x2e, 0x67, 0x65, 0x61, 0x72, 0x2e, 0x76, 0x31]

/-- `int.bit_count` -/
def bit_count (mask : Int) : Nat := (Nat.bits mask.natAbs).count true

structure ChunkParams where
  min_size : Nat
  avg_size : Nat
  max_size : Nat
  mask_short : Int
  mask_long : Int
  ordered : 0 < min_size ∧ min_size ≤ avg_size ∧ avg_size ≤ max_size
  harder : bit_count mask_long < bit_count mask_short

section Chunking

variable (blake3 : Blake3)

def gear (byte : UInt8) : Nat := Wire.ofBE (blake3.digest (GEAR_DOMAIN ++ [byte]) 8)

/-- Either of the loops of `cut_point`: where the hash has none of the mask's bits, or what the hash comes to. -/
def cut_loop (mask : Int) : (window : Bytes) → (fingerprint index : Nat) → Nat ⊕ Nat
  | [], fingerprint, _ => .inr fingerprint
  | byte :: window, fingerprint, index =>
    let fingerprint : Nat := (2 * fingerprint + gear blake3 byte) % 2 ^ 64
    if Int.land (fingerprint : Int) mask = 0 then .inl index else cut_loop mask window fingerprint (index + 1)

def cut_point (data : Bytes) (params : ChunkParams) : Nat :=
  if data.length ≤ params.min_size then data.length
  else
    let stop := min data.length params.max_size
    let normal := min params.avg_size stop
    match cut_loop blake3 params.mask_short ((data.take normal).drop params.min_size) 0 params.min_size with
    | .inl index => index
    | .inr fingerprint =>
      match cut_loop blake3 params.mask_long ((data.take stop).drop normal) fingerprint normal with
      | .inl index => index
      | .inr _ => stop

/-- The loop of `chunk_bytes`. Every round takes at least a byte. -/
def chunk_bytes_from (params : ChunkParams) : (rounds : Nat) → Bytes → List Bytes
  | 0, _ => []
  | rounds + 1, data =>
    if data = [] then []
    else
      let size := cut_point blake3 data params
      data.take size :: chunk_bytes_from params rounds (data.drop size)

def chunk_bytes (data : Bytes) (params : ChunkParams) : List Bytes := chunk_bytes_from blake3 params data.length data

/-- The inner loop of `chunk_stream`, over the blocks that the source has still to give. An empty one ends it. -/
def fill_buffer (max_size : Nat) (buffer : Bytes) : (source : List Bytes) → Bytes × List Bytes
  | [] => (buffer, [])
  | block :: source =>
    if buffer.length < max_size then if block = [] then (buffer, []) else fill_buffer max_size (buffer ++ block) source
    else (buffer, block :: source)

def chunk_stream_from (params : ChunkParams) : (rounds : Nat) → (buffer : Bytes) → (source : List Bytes) → List Bytes
  | 0, _, _ => []
  | rounds + 1, buffer, source =>
    let (buffer, source) := fill_buffer params.max_size buffer source
    if buffer = [] then []
    else
      let size := cut_point blake3 buffer params
      buffer.take size :: chunk_stream_from params rounds (buffer.drop size) source

def chunk_stream (source : List Bytes) (params : ChunkParams) : List Bytes :=
  chunk_stream_from blake3 params source.flatten.length [] source

/-! ## The cuts -/

variable {blake3}

theorem cut_loop_within (mask : Int) (window : Bytes) (fingerprint index cut : Nat)
    (found : cut_loop blake3 mask window fingerprint index = .inl cut) : index ≤ cut ∧ cut < index + window.length := by
  induction window generalizing fingerprint index with
  | nil => cases found
  | cons byte window ih =>
    rw [cut_loop] at found
    split at found
    next =>
      cases found
      simp
    next =>
      have later := ih _ _ found
      rw [List.length_cons]
      omega

/-- A cut leaves something before it, and no more than the largest size. -/
theorem cut_point_within (data : Bytes) (params : ChunkParams) (nonempty : data ≠ []) :
    0 < cut_point blake3 data params ∧ cut_point blake3 data params ≤ data.length ∧
      cut_point blake3 data params ≤ params.max_size := by
  obtain ⟨positive, low, high⟩ := params.ordered
  have some := List.length_pos_of_ne_nil nonempty
  rw [cut_point]
  split_ifs with short
  next => omega
  next =>
    dsimp only
    split
    next cut found =>
      have within := cut_loop_within _ _ _ _ _ found
      simp only [List.length_drop, List.length_take] at within
      omega
    next =>
      split
      next cut found =>
        have within := cut_loop_within _ _ _ _ _ found
        simp only [List.length_drop, List.length_take] at within
        omega
      next => omega

theorem chunk_bytes_from_whole (params : ChunkParams) (rounds : Nat) (data : Bytes) (enough : data.length ≤ rounds) :
    (chunk_bytes_from blake3 params rounds data).flatten = data ∧
      ∀ chunk ∈ chunk_bytes_from blake3 params rounds data, chunk ≠ [] ∧ chunk.length ≤ params.max_size := by
  induction rounds generalizing data with
  | zero =>
    rw [List.length_eq_zero_iff.mp (Nat.le_zero.mp enough)]
    exact ⟨rfl, fun _ impossible => by cases impossible⟩
  | succ rounds ih =>
    rw [chunk_bytes_from]
    split_ifs with empty
    next =>
      rw [empty]
      exact ⟨rfl, fun _ impossible => by cases impossible⟩
    next =>
      obtain ⟨positive, inside, most⟩ := @cut_point_within blake3 data params empty
      obtain ⟨whole, others⟩ := ih (data.drop (cut_point blake3 data params)) (by rw [List.length_drop]; omega)
      refine ⟨by rw [List.flatten_cons, whole, List.take_append_drop], List.forall_mem_cons.mpr ⟨⟨?_, ?_⟩, others⟩⟩
      next =>
        rw [ne_eq, List.take_eq_nil_iff, not_or]
        exact ⟨positive.ne', empty⟩
      next =>
        rw [List.length_take]
        omega

/-- The chunks of a buffer are the buffer, cut. -/
theorem chunk_bytes_whole (params : ChunkParams) (data : Bytes) :
    (chunk_bytes blake3 data params).flatten = data ∧
      ∀ chunk ∈ chunk_bytes blake3 data params, chunk ≠ [] ∧ chunk.length ≤ params.max_size :=
  chunk_bytes_from_whole params data.length data (le_refl _)

theorem fill_buffer_keeps (max_size : Nat) (buffer : Bytes) {source : List Bytes} (blocks : ∀ block ∈ source, block ≠ []) :
    (fill_buffer max_size buffer source).1 ++ (fill_buffer max_size buffer source).2.flatten = buffer ++ source.flatten ∧
      ∀ block ∈ (fill_buffer max_size buffer source).2, block ≠ [] := by
  induction source generalizing buffer with
  | nil => exact ⟨rfl, blocks⟩
  | cons block source ih =>
    obtain ⟨some, others⟩ := List.forall_mem_cons.mp blocks
    rw [fill_buffer]
    split_ifs with more
    next =>
      rw [List.flatten_cons, ← List.append_assoc]
      exact ih (buffer ++ block) others
    next => exact ⟨rfl, blocks⟩

/-- A buffer that stays empty has had the whole source. -/
theorem fill_buffer_empty {max_size : Nat} (positive : 0 < max_size) (buffer : Bytes) (source : List Bytes)
    (empty : (fill_buffer max_size buffer source).1 = []) : (fill_buffer max_size buffer source).2 = [] := by
  induction source generalizing buffer with
  | nil => rfl
  | cons block source ih =>
    rw [fill_buffer] at empty ⊢
    split_ifs at empty ⊢ with more ended
    next => rfl
    next => exact ih _ empty
    next =>
      dsimp only at empty
      rw [empty] at more
      exact absurd positive more

theorem chunk_stream_from_whole (params : ChunkParams) (rounds : Nat) (buffer : Bytes) {source : List Bytes}
    (blocks : ∀ block ∈ source, block ≠ []) (enough : (buffer ++ source.flatten).length ≤ rounds) :
    (chunk_stream_from blake3 params rounds buffer source).flatten = buffer ++ source.flatten ∧
      ∀ chunk ∈ chunk_stream_from blake3 params rounds buffer source, chunk ≠ [] ∧ chunk.length ≤ params.max_size := by
  obtain ⟨positive, low, high⟩ := params.ordered
  induction rounds generalizing buffer source with
  | zero =>
    rw [List.length_eq_zero_iff.mp (Nat.le_zero.mp enough)]
    exact ⟨rfl, fun _ impossible => by cases impossible⟩
  | succ rounds ih =>
    obtain ⟨keeps, blocks'⟩ := fill_buffer_keeps params.max_size buffer blocks
    have ends := fill_buffer_empty (positive.trans_le (low.trans high)) buffer source
    rw [chunk_stream_from]
    generalize fill_buffer params.max_size buffer source = filled at keeps blocks' ends
    obtain ⟨held, left⟩ := filled
    dsimp only at keeps blocks' ends ⊢
    split_ifs with empty
    next =>
      rw [← keeps, empty, ends empty]
      exact ⟨rfl, fun _ impossible => by cases impossible⟩
    next =>
      obtain ⟨positive', inside, most⟩ := @cut_point_within blake3 held params empty
      obtain ⟨whole, others⟩ := ih (held.drop (cut_point blake3 held params)) blocks' (by
        rw [← keeps] at enough
        simp only [List.length_append, List.length_drop] at enough ⊢
        omega)
      refine ⟨?_, List.forall_mem_cons.mpr ⟨⟨?_, ?_⟩, others⟩⟩
      next => rw [List.flatten_cons, whole, ← List.append_assoc, List.take_append_drop, keeps]
      next =>
        rw [ne_eq, List.take_eq_nil_iff, not_or]
        exact ⟨positive'.ne', empty⟩
      next =>
        rw [List.length_take]
        omega

/-- The chunks of a stream are what it gives, cut. -/
theorem chunk_stream_whole (params : ChunkParams) {source : List Bytes} (blocks : ∀ block ∈ source, block ≠ []) :
    (chunk_stream blake3 source params).flatten = source.flatten ∧
      ∀ chunk ∈ chunk_stream blake3 source params, chunk ≠ [] ∧ chunk.length ≤ params.max_size :=
  chunk_stream_from_whole params source.flatten.length [] blocks (le_refl _)

/-! ## A stream is cut where the whole buffer is -/

/-- A cut leaves no less than the smallest size, unless there is no more. -/
theorem cut_point_least (data : Bytes) (params : ChunkParams) :
    cut_point blake3 data params = data.length ∨ params.min_size ≤ cut_point blake3 data params := by
  obtain ⟨positive, low, high⟩ := params.ordered
  rw [cut_point]
  split_ifs with short
  next => exact .inl rfl
  next =>
    dsimp only
    split
    next cut found => exact .inr (cut_loop_within _ _ _ _ _ found).1
    next =>
      split
      next cut found =>
        have within := cut_loop_within _ _ _ _ _ found
        omega
      next => omega

/-- No cut looks beyond the largest size. -/
theorem cut_point_ahead (params : ChunkParams) {buffer : Bytes} (full : params.max_size ≤ buffer.length) (rest : Bytes) :
    cut_point blake3 (buffer ++ rest) params = cut_point blake3 buffer params := by
  obtain ⟨positive, low, high⟩ := params.ordered
  have stop : min (buffer ++ rest).length params.max_size = min buffer.length params.max_size := by
    rw [List.length_append]
    omega
  have within {size : Nat} (small : size ≤ params.max_size) : (buffer ++ rest).take size = buffer.take size :=
    List.take_append_of_le_length (small.trans full)
  have first : (buffer ++ rest).take (min params.avg_size (min buffer.length params.max_size)) =
      buffer.take (min params.avg_size (min buffer.length params.max_size)) := within (by omega)
  have second : (buffer ++ rest).take (min buffer.length params.max_size) = buffer.take (min buffer.length params.max_size) :=
    within (by omega)
  by_cases short : buffer.length ≤ params.min_size
  next =>
    -- all three sizes are the same, and there is nothing to hash
    have only : buffer.length = params.min_size ∧ params.avg_size = params.min_size ∧ params.max_size = params.min_size := by omega
    obtain ⟨same, average, most⟩ := only
    rw [cut_point, cut_point, if_pos short]
    split_ifs
    next => rw [List.length_append] at *; omega
    next =>
      have nothing : (buffer.take params.min_size).drop params.min_size = [] := by simp
      have stop : min (buffer ++ rest).length params.max_size = params.min_size := by rw [stop, most, same, min_self]
      rw [stop]
      dsimp only
      rw [average, min_self, within (le_of_eq most.symm), nothing, same]
      rfl
  next =>
    have long : ¬ (buffer ++ rest).length ≤ params.min_size := by
      rw [List.length_append]
      omega
    rw [cut_point, cut_point, if_neg short, if_neg long, stop]
    dsimp only
    rw [first, second]

/-- What is not yet read comes after a buffer that is full. -/
theorem fill_buffer_full {max_size : Nat} (buffer : Bytes) {source : List Bytes} (blocks : ∀ block ∈ source, block ≠ []) :
    (fill_buffer max_size buffer source).2 = [] ∨ max_size ≤ (fill_buffer max_size buffer source).1.length := by
  induction source generalizing buffer with
  | nil => exact .inl rfl
  | cons block source ih =>
    obtain ⟨some, others⟩ := List.forall_mem_cons.mp blocks
    rw [fill_buffer]
    split_ifs with more
    next => exact ih (buffer ++ block) others
    next => exact .inr (Nat.le_of_not_lt more)

theorem chunk_stream_from_agrees (params : ChunkParams) (rounds : Nat) (buffer : Bytes) {source : List Bytes}
    (blocks : ∀ block ∈ source, block ≠ []) :
    chunk_stream_from blake3 params rounds buffer source = chunk_bytes_from blake3 params rounds (buffer ++ source.flatten) := by
  obtain ⟨positive, low, high⟩ := params.ordered
  induction rounds generalizing buffer source with
  | zero => rfl
  | succ rounds ih =>
    obtain ⟨keeps, blocks'⟩ := fill_buffer_keeps params.max_size buffer blocks
    have ends := fill_buffer_empty (positive.trans_le (low.trans high)) buffer source
    have full := @fill_buffer_full params.max_size buffer source blocks
    rw [chunk_stream_from, chunk_bytes_from, ← keeps]
    generalize fill_buffer params.max_size buffer source = filled at blocks' ends full ⊢
    obtain ⟨held, left⟩ := filled
    dsimp only at blocks' ends full ⊢
    by_cases empty : held = []
    next => simp [empty, ends empty]
    next =>
      have cut : cut_point blake3 (held ++ left.flatten) params = cut_point blake3 held params := by
        rcases full with rfl | full
        next => rw [List.flatten_nil, List.append_nil]
        next => exact cut_point_ahead params full _
      obtain ⟨-, inside, -⟩ := @cut_point_within blake3 held params empty
      rw [if_neg empty, if_neg (by simp [empty]), cut, List.take_append_of_le_length inside, List.drop_append_of_le_length inside,
        ih _ blocks']

theorem chunk_bytes_from_least (params : ChunkParams) (rounds : Nat) (data : Bytes) :
    ∀ chunk ∈ (chunk_bytes_from blake3 params rounds data).dropLast, params.min_size ≤ chunk.length := by
  induction rounds generalizing data with
  | zero => simp [chunk_bytes_from]
  | succ rounds ih =>
    rw [chunk_bytes_from]
    split_ifs with empty
    next => simp
    next =>
      obtain ⟨-, inside, -⟩ := @cut_point_within blake3 data params empty
      dsimp only
      rcases rest : chunk_bytes_from blake3 params rounds (data.drop (cut_point blake3 data params)) with _ | ⟨next, chunks⟩
      next => simp
      next =>
        rw [List.dropLast_cons_of_ne_nil (List.cons_ne_nil next chunks)]
        refine List.forall_mem_cons.mpr ⟨?_, rest ▸ ih _⟩
        rw [List.length_take, min_eq_left inside]
        refine (cut_point_least data params).resolve_left fun whole => ?_
        rw [whole, List.drop_length] at rest
        cases rounds <;> cases rest

/-- However a stream delivers its bytes, it is cut as they are in one buffer. -/
theorem stream_agrees (params : ChunkParams) (data : Bytes) (source : List Bytes) (blocks : ∀ block ∈ source, block ≠ [])
    (delivers : source.flatten = data) :
    chunk_stream blake3 source params = chunk_bytes blake3 data params ∧ (chunk_bytes blake3 data params).flatten = data ∧
      (∀ chunk ∈ chunk_bytes blake3 data params, chunk.length ≤ params.max_size) ∧
        ∀ chunk ∈ (chunk_bytes blake3 data params).dropLast, params.min_size ≤ chunk.length := by
  subst delivers
  obtain ⟨whole, sizes⟩ := @chunk_bytes_whole blake3 params source.flatten
  refine ⟨?_, whole, fun chunk member => (sizes chunk member).2, chunk_bytes_from_least params _ _⟩
  rw [chunk_stream, chunk_stream_from_agrees params _ [] blocks, List.nil_append, chunk_bytes]

end Chunking

/-- Cuts after every fourth byte on average, and every second one from there on. -/
def smallChunks : ChunkParams where
  min_size := 2
  avg_size := 4
  max_size := 8
  mask_short := 3
  mask_long := 1
  ordered := by decide
  harder := by decide

/-- The digests are those of BLAKE3. -/
def gearDigests : Blake3 := .ofTable [
  (GEAR_DOMAIN ++ [0x63], [0x07, 0xec, 0x8b, 0xde, 0xe0, 0x1b, 0xa7, 0x88]),
  (GEAR_DOMAIN ++ [0x64], [0x48, 0xed, 0x4b, 0x39, 0xf8, 0xca, 0x67, 0x49])]

theorem stream_agrees_thrice :
    chunk_stream gearDigests [[0x61], [0x62, 0x63], [0x64]] smallChunks = chunk_bytes gearDigests [0x61, 0x62, 0x63, 0x64] smallChunks ∧
      (chunk_bytes gearDigests [0x61, 0x62, 0x63, 0x64] smallChunks).flatten = [0x61, 0x62, 0x63, 0x64] ∧
        (∀ chunk ∈ chunk_bytes gearDigests [0x61, 0x62, 0x63, 0x64] smallChunks, chunk.length ≤ 8) ∧
          ∀ chunk ∈ (chunk_bytes gearDigests [0x61, 0x62, 0x63, 0x64] smallChunks).dropLast, 2 ≤ chunk.length :=
  stream_agrees smallChunks [0x61, 0x62, 0x63, 0x64] [[0x61], [0x62, 0x63], [0x64]] (by decide) (by decide)

end LedgerVcs

import LedgerVcs.Format.Cdc
import LedgerVcs.Lib.Cutting
import LedgerVcs.Lib.Monads

set_option autoImplicit false

/-! Chunk boundaries after a local edit. -/

namespace LedgerVcs

open Wire (Bytes)

open Cutting (Cuts Decided)

/-! ## The parameters of an average size -/

def ChunkParams.make (min_size avg_size max_size : Nat) (mask_short mask_long : Int) : Except PyError ChunkParams :=
  if ordered : 0 < min_size ∧ min_size ≤ avg_size ∧ avg_size ≤ max_size then
    if harder : bit_count mask_long < bit_count mask_short then
      .ok { min_size, avg_size, max_size, mask_short, mask_long, ordered, harder }
    else
      .error (.valueError ("the pre-average mask must be strictly harder than the post-average one, or normalization widens the " ++
        "size distribution instead of tightening it"))
  else .error (.valueError s!"chunk sizes must satisfy 0 < min <= avg <= max, got {min_size}/{avg_size}/{max_size}")

def NORMALIZATION_LEVEL : Nat := 2

def mask_with_bits (bits : Nat) : Except PyError Int :=
  if 1 ≤ bits ∧ bits ≤ 63 then .ok ((1 <<< bits - 1) <<< (64 - bits) : Nat) else .error (.valueError s!"mask width out of range: {bits}")

def ChunkParams.for_average (avg_size : Nat) : Except PyError ChunkParams :=
  if avg_size < 8 ∨ bit_count avg_size ≠ 1 then
    .error (.valueError s!"average chunk size must be a power of two >= 8, got {avg_size}")
  else do
    let avg_bits := avg_size.size - 1
    let mask_short ← mask_with_bits (avg_bits + NORMALIZATION_LEVEL)
    let mask_long ← mask_with_bits (avg_bits - NORMALIZATION_LEVEL)
    ChunkParams.make (avg_size / 4) avg_size (avg_size * 4) mask_short mask_long

section Masks

variable {bits fingerprint : Nat} {mask : Int}

/-- A word has none of the bits of a mask just where it is below the lowest of them. -/
theorem mask_with_bits_clear (made : mask_with_bits bits = .ok mask) (word : fingerprint < 2 ^ 64) :
    Int.land (fingerprint : Int) mask = 0 ↔ fingerprint < 2 ^ (64 - bits) := by
  rw [mask_with_bits] at made
  split_ifs at made with range
  cases made
  have lands : Int.land (fingerprint : Int) (((1 <<< bits - 1) <<< (64 - bits) : Nat) : Int) =
      ((fingerprint &&& (1 <<< bits - 1) <<< (64 - bits) : Nat) : Int) := rfl
  rw [lands, Int.natCast_eq_zero]
  constructor
  next =>
    intro clear
    apply Nat.lt_pow_two_of_testBit
    intro place above
    by_cases inside : place < 64
    next =>
      have bit := congrArg (Nat.testBit · place) clear
      simpa [Nat.one_shiftLeft, above, show place - (64 - bits) < bits by omega] using bit
    next => exact Nat.testBit_lt_two_pow (word.trans_le (Nat.pow_le_pow_right (by omega) (by omega)))
  next =>
    intro below
    apply Nat.eq_of_testBit_eq
    intro place
    by_cases above : 64 - bits ≤ place
    next => simp [Nat.testBit_lt_two_pow (below.trans_le (Nat.pow_le_pow_right (by omega) above))]
    next => simp [above]

end Masks

theorem for_average_eased {avg_size fingerprint : Nat} {params : ChunkParams} (made : ChunkParams.for_average avg_size = .ok params)
    (word : fingerprint < 2 ^ 64) (clear : Int.land (fingerprint : Int) params.mask_short = 0) :
    Int.land (fingerprint : Int) params.mask_long = 0 := by
  rw [ChunkParams.for_average] at made
  split_ifs at made
  obtain ⟨mask_short, short, mask_long, long, made⟩ := by simpa only [Monads.except_bind_ok] using made
  rw [ChunkParams.make] at made
  split_ifs at made
  cases made
  rw [mask_with_bits_clear short word] at clear
  rw [mask_with_bits_clear long word]
  exact clear.trans_le (Nat.pow_le_pow_right (by omega) (by omega))

section Hashing

variable (blake3 : Blake3)

def rolled (fingerprint : Nat) (window : Bytes) : Nat :=
  window.foldl (fun fingerprint byte => (2 * fingerprint + gear blake3 byte) % 2 ^ 64) fingerprint

variable {blake3}

theorem rolled_append (fingerprint : Nat) (window more : Bytes) :
    rolled blake3 fingerprint (window ++ more) = rolled blake3 (rolled blake3 fingerprint window) more :=
  List.foldl_append

theorem rolled_congr (fingerprint : Nat) (window : Bytes) :
    rolled blake3 fingerprint window ≡ fingerprint * 2 ^ window.length + rolled blake3 0 window [MOD 2 ^ 64] := by
  induction window using List.reverseRecOn with
  | nil => simp [rolled, Nat.ModEq.refl]
  | append_singleton window byte ih =>
    have step (start : Nat) : rolled blake3 start (window ++ [byte]) ≡ 2 * rolled blake3 start window + gear blake3 byte [MOD 2 ^ 64] := by
      rw [rolled_append]
      exact Nat.mod_modEq _ _
    calc rolled blake3 fingerprint (window ++ [byte])
      _ ≡ 2 * rolled blake3 fingerprint window + gear blake3 byte [MOD 2 ^ 64] := step fingerprint
      _ ≡ 2 * (fingerprint * 2 ^ window.length + rolled blake3 0 window) + gear blake3 byte [MOD 2 ^ 64] :=
        (ih.mul_left 2).add_right _
      _ = fingerprint * 2 ^ (window ++ [byte]).length + (2 * rolled blake3 0 window + gear blake3 byte) := by
        rw [List.length_append, List.length_singleton, pow_succ]
        ring
      _ ≡ fingerprint * 2 ^ (window ++ [byte]).length + rolled blake3 0 (window ++ [byte]) [MOD 2 ^ 64] :=
        (step 0).symm.add_left _

theorem rolled_word {fingerprint : Nat} {window : Bytes} (some : window ≠ []) : rolled blake3 fingerprint window < 2 ^ 64 := by
  induction window using List.reverseRecOn with
  | nil => exact absurd rfl some
  | append_singleton window byte =>
    rw [rolled_append]
    exact Nat.mod_lt _ (by positivity)

/-- The hash forgets what is more than 64 bytes back. -/
theorem rolled_forgets (fingerprint : Nat) {window : Bytes} (long : 64 ≤ window.length) :
    rolled blake3 fingerprint window = rolled blake3 0 (window.drop (window.length - 64)) := by
  have only (start : Nat) (recent : Bytes) (size : recent.length = 64) : rolled blake3 start recent = rolled blake3 0 recent := by
    have some : recent ≠ [] := List.ne_nil_of_length_pos (by omega)
    refine Nat.ModEq.eq_of_lt_of_lt ((rolled_congr start recent).trans ?_) (rolled_word some) (rolled_word some)
    rw [size]
    exact (Nat.modEq_zero_iff_dvd.mpr (Dvd.intro_left start rfl)).add_right _ |>.trans (by rw [Nat.zero_add])
  -- 64 doublings push whatever was there before out of the word
  conv_lhs => rw [← List.take_append_drop (window.length - 64) window]
  rw [rolled_append]
  exact only _ _ (by rw [List.length_drop]; omega)

/-! ## Cuts -/

theorem cut_loop_append (mask : Int) (window more : Bytes) (fingerprint index : Nat) :
    cut_loop blake3 mask (window ++ more) fingerprint index =
      (cut_loop blake3 mask window fingerprint index).elim .inl fun fingerprint =>
        cut_loop blake3 mask more fingerprint (index + window.length) := by
  induction window generalizing fingerprint index with
  | nil => rfl
  | cons byte window ih =>
    rw [List.cons_append, cut_loop, cut_loop]
    split_ifs with clear
    next => rfl
    next => rw [ih, List.length_cons, Nat.add_right_comm, Nat.add_assoc]

theorem cut_loop_unmet {mask : Int} {window : Bytes} {fingerprint index last : Nat}
    (unmet : cut_loop blake3 mask window fingerprint index = .inr last) : last = rolled blake3 fingerprint window := by
  induction window generalizing fingerprint index with
  | nil => exact (Sum.inr.inj unmet).symm
  | cons byte window ih =>
    rw [cut_loop] at unmet
    split_ifs at unmet with clear
    exact ih unmet

theorem cut_loop_marked {mask : Int} {window more : Bytes} {fingerprint : Nat} (index : Nat) (some : window ≠ [])
    (clear : Int.land (rolled blake3 fingerprint window : Int) mask = 0) :
    ∃ cut, cut_loop blake3 mask (window ++ more) fingerprint index = .inl cut ∧ cut < index + window.length := by
  rcases found : cut_loop blake3 mask window fingerprint index with cut | last
  next => exact ⟨cut, by rw [cut_loop_append, found]; rfl, (cut_loop_within _ _ _ _ _ found).2⟩
  next =>
    exfalso
    induction window using List.reverseRecOn with
    | nil => exact some rfl
    | append_singleton window byte =>
      rw [cut_loop_append] at found
      rcases before : cut_loop blake3 mask window fingerprint index with cut | last'
      next =>
        rw [before] at found
        cases found
      next =>
        rw [before, cut_loop_unmet before] at found
        rw [rolled_append] at clear
        change cut_loop blake3 mask [byte] _ _ = _ at found
        rw [cut_loop] at found
        cases found.symm.trans (if_pos clear)

theorem cut_loop_local {mask : Int} {window front : Bytes} {fingerprint index cut : Nat}
    (found : cut_loop blake3 mask window fingerprint index = .inl cut) (same : window.take (cut + 1 - index) <+: front) :
    cut_loop blake3 mask front fingerprint index = .inl cut := by
  induction window generalizing fingerprint index front with
  | nil => cases found
  | cons byte window ih =>
    have within := cut_loop_within _ _ _ _ _ found
    rw [show cut + 1 - index = cut - index + 1 by omega, List.take_succ_cons] at same
    obtain ⟨more, rfl⟩ := same
    rw [cut_loop] at found
    rw [List.cons_append, cut_loop]
    split_ifs at found ⊢ with clear
    next => exact found
    next =>
      have later := cut_loop_within _ _ _ _ _ found
      exact ih found (by rw [show cut + 1 - (index + 1) = cut - index by omega]; exact List.prefix_append _ _)

theorem cut_point_decided (params : ChunkParams) : Decided (cut_point blake3 · params) := by
  intro front tail other early
  obtain ⟨positive, low, high⟩ := params.ordered
  have least := @cut_point_least blake3 (front ++ tail) params
  have size (more : Bytes) : (front ++ more).length = front.length + more.length := List.length_append
  have first := size tail
  have second := size other
  have shared {places : Nat} (inside : places ≤ front.length) (more : Bytes) : (front ++ more).take places = front.take places :=
    List.take_append_of_le_length inside
  -- a window that a hit falls into begins with the bytes up to the hit, in either list
  have again {mask : Int} {fingerprint start stop stop' cut : Nat} (inside : cut < front.length) (room : cut < stop')
      (found : cut_loop blake3 mask (((front ++ tail).take stop).drop start) fingerprint start = .inl cut) :
      cut_loop blake3 mask (((front ++ other).take stop').drop start) fingerprint start = .inl cut := by
    have within := cut_loop_within _ _ _ _ _ found
    rw [List.length_drop, List.length_take] at within
    refine cut_loop_local found ?_
    rw [List.take_drop, List.take_take, show min (start + (cut + 1 - start)) stop = cut + 1 by omega, shared (by omega), ← shared (by omega) other,
      show cut + 1 = min (cut + 1) stop' by omega, ← List.take_take]
    exact (List.take_prefix _ _).drop _
  dsimp only at early ⊢
  have long : ¬ (front ++ tail).length ≤ params.min_size := by
    intro short
    rw [cut_point, if_pos short] at early
    omega
  have long' : ¬ (front ++ other).length ≤ params.min_size := by omega
  have stops := early
  rw [cut_point, if_neg long] at stops
  rw [cut_point, cut_point, if_neg long, if_neg long']
  dsimp only at stops ⊢
  rcases hit : cut_loop blake3 params.mask_short
      (((front ++ tail).take (min params.avg_size (min (front ++ tail).length params.max_size))).drop params.min_size) 0
      params.min_size with cut | fingerprint
  next =>
    rw [hit] at stops
    dsimp only at stops
    have within := cut_loop_within _ _ _ _ _ hit
    rw [List.length_drop, List.length_take] at within
    rw [again stops (by omega) hit]
  next =>
    rw [hit] at stops
    dsimp only at stops ⊢
    have normal : min params.avg_size (min (front ++ tail).length params.max_size) = params.avg_size ∧
        min params.avg_size (min (front ++ other).length params.max_size) = params.avg_size ∧ params.avg_size ≤ front.length := by
      split at stops
      next cut found =>
        have within := cut_loop_within _ _ _ _ _ found
        rw [List.length_drop, List.length_take] at within
        omega
      next => omega
    obtain ⟨average, average', inside⟩ := normal
    rw [average, shared inside] at hit
    rw [average] at stops
    rw [average', average, shared inside, hit]
    dsimp only
    split at stops
    next cut found =>
      have within := cut_loop_within _ _ _ _ _ found
      rw [List.length_drop, List.length_take] at within
      rw [again stops (by omega) found]
    next unmet =>
      have most : min (front ++ tail).length params.max_size = params.max_size ∧
          min (front ++ other).length params.max_size = params.max_size := by omega
      rw [most.1] at stops unmet
      rw [shared stops.le] at unmet
      rw [most.1, most.2, shared stops.le, unmet]

theorem cut_point_marked {avg_size : Nat} {params : ChunkParams} (made : ChunkParams.for_average avg_size = .ok params) {data : Bytes}
    {place : Nat} (inside : place < data.length) (far : params.min_size + 63 ≤ place)
    (mark : Int.land (rolled blake3 0 ((data.drop (place - 63)).take 64) : Int) params.mask_short = 0) :
    cut_point blake3 data params ≤ place := by
  obtain ⟨positive, low, high⟩ := params.ordered
  have some : data ≠ [] := List.ne_nil_of_length_pos (by omega)
  obtain ⟨-, whole, most⟩ := @cut_point_within blake3 data params some
  by_cases beyond : min data.length params.max_size ≤ place
  -- the chunk is full before the mark
  next => omega
  next =>
    have before (start : Nat) {stop : Nat} (room : place < stop) :
        ∃ more, (data.take stop).drop start = (data.take (place + 1)).drop start ++ more := by
      rw [show place + 1 = min (place + 1) stop by omega, ← List.take_take]
      exact ((List.take_prefix _ _).drop _).imp fun more same => same.symm
    have hashed : rolled blake3 0 ((data.take (place + 1)).drop params.min_size) = rolled blake3 0 ((data.drop (place - 63)).take 64) := by
      have size : ((data.take (place + 1)).drop params.min_size).length = place + 1 - params.min_size := by
        rw [List.length_drop, List.length_take, min_eq_left (by omega)]
      rw [rolled_forgets 0 (by omega), size, List.drop_drop, List.drop_take]
      congr 3 <;> omega
    rw [cut_point, if_neg (by omega)]
    dsimp only
    by_cases early : place < min params.avg_size (min data.length params.max_size)
    next =>
      -- the mark is hashed under the harder mask, and the loop has stopped there if not sooner
      obtain ⟨more, window⟩ := before params.min_size early
      rw [← hashed] at mark
      obtain ⟨cut, found, sooner⟩ := @cut_loop_marked blake3 _ _ more 0 params.min_size
        (List.ne_nil_of_length_pos (by rw [List.length_drop, List.length_take]; omega)) mark
      rw [List.length_drop, List.length_take] at sooner
      rw [window, found]
      dsimp only
      omega
    next =>
      rcases hit : cut_loop blake3 params.mask_short
          ((data.take (min params.avg_size (min data.length params.max_size))).drop params.min_size) 0 params.min_size with cut | fingerprint
      next =>
        have within := cut_loop_within _ _ _ _ _ hit
        rw [List.length_drop, List.length_take] at within
        dsimp only
        omega
      next =>
        -- the second loop goes on with the hash that the first has left, and its mask is met too
        obtain ⟨more, window⟩ := before (min params.avg_size (min data.length params.max_size)) (Nat.lt_of_not_le beyond)
        have further : rolled blake3 fingerprint ((data.take (place + 1)).drop (min params.avg_size (min data.length params.max_size))) =
            rolled blake3 0 ((data.drop (place - 63)).take 64) := by
          have upto : data.take (min params.avg_size (min data.length params.max_size)) =
              (data.take (place + 1)).take (min params.avg_size (min data.length params.max_size)) := by
            rw [List.take_take]
            congr 1
            omega
          have beyond : (data.take (place + 1)).drop (min params.avg_size (min data.length params.max_size)) =
              ((data.take (place + 1)).drop params.min_size).drop
                (min params.avg_size (min data.length params.max_size) - params.min_size) := by
            rw [List.drop_drop, Nat.add_sub_of_le (by omega)]
          rw [cut_loop_unmet hit, ← rolled_append, ← hashed, upto, List.drop_take, beyond, List.take_append_drop]
        have word : rolled blake3 0 ((data.drop (place - 63)).take 64) < 2 ^ 64 :=
          rolled_word (List.ne_nil_of_length_pos (by rw [List.length_take, List.length_drop]; omega))
        have mark' := for_average_eased made word mark
        rw [← further] at mark'
        obtain ⟨cut, found, sooner⟩ := @cut_loop_marked blake3 _ _ more _ (min params.avg_size (min data.length params.max_size))
          (List.ne_nil_of_length_pos (by rw [List.length_drop, List.length_take]; omega)) mark'
        rw [List.length_drop, List.length_take] at sooner
        dsimp only
        rw [window, found]
        dsimp only
        omega

/-! ## Boundaries -/

theorem chunk_bytes_from_cuts (params : ChunkParams) {rounds : Nat} {data : Bytes} (enough : data.length ≤ rounds) :
    Cuts (cut_point blake3 · params) data (chunk_bytes_from blake3 params rounds data) := by
  induction rounds generalizing data with
  | zero =>
    rw [List.length_eq_zero_iff.mp (Nat.le_zero.mp enough)]
    exact .done
  | succ rounds ih =>
    rw [chunk_bytes_from]
    split_ifs with empty
    next =>
      rw [empty]
      exact .done
    next =>
      obtain ⟨positive, inside, -⟩ := @cut_point_within blake3 data params empty
      exact .piece empty (ih (by rw [List.length_drop]; omega))

theorem chunk_bytes_cuts (data : Bytes) (params : ChunkParams) :
    Cuts (cut_point blake3 · params) data (chunk_bytes blake3 data params) :=
  chunk_bytes_from_cuts params (le_refl _)

/-- An edit costs the chunks around it. Those that end before it are as they were, the first of the others reaches the
edit, and from any place behind it where a chunk begins both before and after the edit, all are as they were. -/
theorem edit_stays_local (params : ChunkParams) (before old new after : Bytes) :
    ∃ front rest rest', chunk_bytes blake3 (before ++ old ++ after) params = front ++ rest ∧
      chunk_bytes blake3 (before ++ new ++ after) params = front ++ rest' ∧
      (∀ chunk, chunk ∈ rest.head? ∨ chunk ∈ rest'.head? →
        chunk.length ≤ params.max_size ∧ before.length ≤ (front ++ [chunk]).flatten.length) ∧
      ∀ edited edited' back back' kept, rest = edited ++ back → rest' = edited' ++ back' →
        (front ++ edited).flatten = before ++ old ++ kept → (front ++ edited').flatten = before ++ new ++ kept → back = back' := by
  have first := @chunk_bytes_cuts blake3 (before ++ old ++ after) params
  have second := @chunk_bytes_cuts blake3 (before ++ new ++ after) params
  have small (data : Bytes) {chunk : Bytes} (member : chunk ∈ chunk_bytes blake3 data params) : chunk.length ≤ params.max_size :=
    ((chunk_bytes_whole params data).2 chunk member).2
  have sizes := @small (before ++ old ++ after)
  have sizes' := @small (before ++ new ++ after)
  simp only [List.append_assoc] at first second sizes sizes' ⊢
  obtain ⟨front, rest, rest', same, same', reach⟩ := Cuts.front (cut_point_decided params) first second
  refine ⟨front, rest, rest', same, same', fun chunk member => ⟨?_, reach chunk member⟩, ?_⟩
  next =>
    rcases member with member | member
    next => exact sizes (same ▸ List.mem_append_right _ (List.mem_of_mem_head? member))
    next => exact sizes' (same' ▸ List.mem_append_right _ (List.mem_of_mem_head? member))
  next =>
    rintro edited edited' back back' kept rfl rfl upto upto'
    rw [same, ← List.append_assoc front] at first
    rw [same', ← List.append_assoc front] at second
    have whole := first.flatten
    have whole' := second.flatten
    rw [List.flatten_append, upto, List.append_assoc, List.append_assoc, List.append_cancel_left_eq, List.append_cancel_left_eq] at whole
    rw [List.flatten_append, upto', List.append_assoc, List.append_assoc, List.append_cancel_left_eq, List.append_cancel_left_eq]
      at whole'
    refine @Cuts.rejoin _ _ _ _ back.flatten _ _ _ _ first second ?_ ?_
    next => rw [← first.flatten, @List.flatten_append _ (front ++ edited) back, List.drop_left]
    next => rw [← second.flatten, @List.flatten_append _ (front ++ edited') back', List.drop_left, List.append_cancel_left (whole'.trans whole.symm)]

variable (blake3) in
def Boundary (params : ChunkParams) (data : Bytes) (place : Nat) : Prop :=
  ∃ front back, chunk_bytes blake3 data params = front ++ back ∧ front.flatten.length = place

theorem boundary_iff {params : ChunkParams} {data : Bytes} {place : Nat} :
    Boundary blake3 params data place ↔ place ∈ (chunk_bytes blake3 data params).inits.map (·.flatten.length) := by
  simp only [Boundary, List.mem_map, List.mem_inits]
  constructor
  next => exact fun ⟨front, back, same, here⟩ => ⟨front, ⟨back, same.symm⟩, here⟩
  next => exact fun ⟨front, ⟨back, same⟩, here⟩ => ⟨front, back, same.symm, here⟩

theorem marked_boundary {avg_size : Nat} {params : ChunkParams} (made : ChunkParams.for_average avg_size = .ok params)
    (ahead after : Bytes) {place : Nat} (inside : place < after.length) (far : params.min_size + 63 ≤ place)
    (mark : Int.land (rolled blake3 0 ((after.drop (place - 63)).take 64) : Int) params.mask_short = 0)
    (clear : ∀ near, place < near + (params.min_size + 63) → near < place →
      ¬ Boundary blake3 params (ahead ++ after) (ahead.length + near)) :
    ∃ front back, chunk_bytes blake3 (ahead ++ after) params = front ++ back ∧ front.flatten = ahead ++ after.take place := by
  have cuts := @chunk_bytes_cuts blake3 (ahead ++ after) params
  have whole := cuts.flatten
  obtain ⟨front, piece, back, same, begun, reached⟩ := @Cutting.straddled _ (chunk_bytes blake3 (ahead ++ after) params)
    (ahead.length + place) (by rw [whole, List.length_append]; omega)
  by_cases here : front.flatten.length = ahead.length + place
  next =>
    refine ⟨front, piece :: back, same, ?_⟩
    rw [same, List.flatten_append] at whole
    rw [← @List.take_left _ front.flatten (piece :: back).flatten, whole, here, List.take_length_add_append]
  next =>
    exfalso
    rw [same] at cuts
    -- the chunk around the place begins far before it, so that the mark ends it
    have early : front.flatten.length + (params.min_size + 63) ≤ ahead.length + place := by
      by_contra late
      refine clear (front.flatten.length - ahead.length) (by omega) (by omega) ⟨front, piece :: back, same, by omega⟩
    rcases cuts.after.head with none | ⟨rest, next, -⟩
    next => cases none
    next =>
      cases next
      have short := @cut_point_marked blake3 _ _ made ((ahead ++ after).drop front.flatten.length)
        (ahead.length + place - front.flatten.length) (by rw [List.length_drop, List.length_append]; omega) (by omega) (by
          rw [List.drop_drop, show front.flatten.length + (ahead.length + place - front.flatten.length - 63) =
            ahead.length + (place - 63) by omega, List.drop_length_add_append]
          exact mark)
      rw [List.length_take] at reached
      omega

/-- Files that end alike are cut alike from a mark on: where the last 64 bytes hash to a cut before the average size, both have a
boundary, unless one has had another too shortly before. -/
theorem marks_resync {avg_size : Nat} {params : ChunkParams} (made : ChunkParams.for_average avg_size = .ok params)
    (old new after : Bytes) (place : Nat) (inside : place < after.length) (far : params.min_size + 63 ≤ place)
    (mark : Int.land (rolled blake3 0 ((after.drop (place - 63)).take 64) : Int) params.mask_short = 0)
    (clear : ∀ near, place < near + (params.min_size + 63) → near < place →
      ¬ Boundary blake3 params (old ++ after) (old.length + near) ∧ ¬ Boundary blake3 params (new ++ after) (new.length + near)) :
    ∃ front front' back, chunk_bytes blake3 (old ++ after) params = front ++ back ∧
      chunk_bytes blake3 (new ++ after) params = front' ++ back ∧
      front.flatten = old ++ after.take place ∧ front'.flatten = new ++ after.take place := by
  obtain ⟨front, back, same, upto⟩ := marked_boundary made old after inside far mark fun near close short => (clear near close short).1
  obtain ⟨front', back', same', upto'⟩ := marked_boundary made new after inside far mark fun near close short => (clear near close short).2
  have first := @chunk_bytes_cuts blake3 (old ++ after) params
  have second := @chunk_bytes_cuts blake3 (new ++ after) params
  rw [same] at first
  rw [same'] at second
  have left (ahead : Bytes) : (ahead ++ after).drop (ahead ++ after.take place).length = after.drop place := by
    rw [List.length_append, List.length_take, min_eq_left inside.le, List.drop_length_add_append]
  obtain rfl := first.rejoin second (by rw [upto, left]) (by rw [upto', left])
  exact ⟨front, front', back, same, same', upto, upto'⟩

end Hashing

def AVG_CHUNK_BYTES : Nat := 1024 * 1024

def PRODUCTION_PARAMS : ChunkParams where
  min_size := 256 * 1024
  avg_size := AVG_CHUNK_BYTES
  max_size := MAX_CHUNK_BYTES
  mask_short := 0xfffffc0000000000
  mask_long := 0xffffc00000000000
  ordered := by decide
  harder := by decide +kernel

example : ChunkParams.for_average AVG_CHUNK_BYTES = .ok PRODUCTION_PARAMS := rfl

def shortChunks : ChunkParams where
  min_size := 8
  avg_size := 32
  max_size := 128
  mask_short := 0xfe00000000000000
  mask_long := 0xe000000000000000
  ordered := by decide
  harder := by decide +kernel

example : ChunkParams.for_average 32 = .ok shortChunks := rfl

/-- The digests are those of BLAKE3. -/
def starDigests : Blake3 := .ofTable [
  (GEAR_DOMAIN ++ [0x53], [0x08, 0x0e, 0x34, 0xb3, 0x4d, 0xce, 0xd9, 0x76]),
  (GEAR_DOMAIN ++ [0x2a], [0x10, 0xd4, 0x57, 0xb6, 0x4c, 0x4a, 0x7e, 0x58])]

def starred : Bytes := .replicate 71 0x53 ++ [0x2a, 0x53]

theorem marks_resync_starred :
    ∃ front front' back, chunk_bytes starDigests ([] ++ starred) shortChunks = front ++ back ∧
      chunk_bytes starDigests ([0x2a] ++ starred) shortChunks = front' ++ back ∧
      front.flatten = [] ++ starred.take 71 ∧ front'.flatten = [0x2a] ++ starred.take 71 := by
  have first : chunk_bytes starDigests ([] ++ starred) shortChunks = [.replicate 71 0x53, [0x2a, 0x53]] := by decide +kernel
  have second : chunk_bytes starDigests ([0x2a] ++ starred) shortChunks = [0x2a :: .replicate 71 0x53, [0x2a, 0x53]] := by
    decide +kernel
  refine @marks_resync starDigests 32 shortChunks rfl [] [0x2a] starred 71 (by decide) (by decide) (by decide +kernel) fun near close short => ?_
  change 71 < near + (8 + 63) at close
  rw [boundary_iff, boundary_iff, first, second]
  simp
  omega

end LedgerVcs

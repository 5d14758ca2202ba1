import LedgerVcs.Format.Shape

set_option autoImplicit false

/-! Where `partition` ends nodes. -/

namespace LedgerVcs

open Wire (Bytes)

variable (blake3 : Blake3)

/-- Whether a node of these keys, each with the bytes of its entry, is ended by its last key. -/
abbrev node_ends (level : Nat) (params : ShapeParams) : List (Bytes × Nat) → Bool := closes blake3 Prod.fst Prod.snd level params

/-! ## Leaves -/

section Leaves

/-- The ends that `partition` returns at level 0. -/
def leaf_ends (params : ShapeParams) (keys : List (Bytes × Nat)) : List Nat :=
  Runs.offsets 0 (Runs.scan (node_ends blake3 0 params) keys).all

variable {blake3} {params : ShapeParams}

theorem partition_leaf (keys : List (Bytes × Nat)) :
    partition blake3 (keys.map Prod.fst) (keys.map Prod.snd) 0 params = .ok (leaf_ends blake3 params keys) :=
  (partition_ok blake3 Prod.fst Prod.snd 0 params keys).resolve_right fun high => absurd high.1 (by decide)

theorem leaf_ends_resume {front : List (Bytes × Nat)} (whole : Runs.Whole (node_ends blake3 0 params) front) (rest : List (Bytes × Nat)) :
    leaf_ends blake3 params (front ++ rest) = leaf_ends blake3 params front ++ (leaf_ends blake3 params rest).map (front.length + ·) := by
  have flat := Runs.scan_flatten (node_ends blake3 0 params) front
  rw [← Runs.all_flatten] at flat
  rw [leaf_ends, Runs.all_resume whole.scan, Runs.offsets_append, flat, Nat.zero_add, Runs.offsets_shift front.length]
  rfl

theorem mem_leaf_ends {keys : List (Bytes × Nat)} {stop : Nat} : stop ∈ leaf_ends blake3 params keys ↔
    0 < stop ∧ stop ≤ keys.length ∧ (stop = keys.length ∨ Runs.Whole (node_ends blake3 0 params) (keys.take stop)) :=
  Runs.mem_offsets_all _ _ _

/-- Past whole nodes, ends depend on what comes after them only. -/
theorem mem_leaf_ends_after {front : List (Bytes × Nat)} (whole : Runs.Whole (node_ends blake3 0 params) front)
    (rest : List (Bytes × Nat)) {more : Nat} (some : 0 < more) :
    front.length + more ∈ leaf_ends blake3 params (front ++ rest) ↔ more ∈ leaf_ends blake3 params rest := by
  rw [leaf_ends_resume whole, List.mem_append, List.mem_map]
  constructor
  next =>
    rintro (early | ⟨stop, member, same⟩)
    next =>
      have inside := (mem_leaf_ends.mp early).2.1
      omega
    next => rwa [← Nat.add_left_cancel same]
  next => exact fun member => .inr ⟨more, member, rfl⟩

theorem ends_before {front tail : List (Bytes × Nat)} {stop : Nat} (early : stop < front.length) :
    stop ∈ leaf_ends blake3 params (front ++ tail) ↔ 0 < stop ∧ Runs.Whole (node_ends blake3 0 params) (front.take stop) := by
  rw [mem_leaf_ends, List.take_append_of_le_length early.le, List.length_append]
  constructor
  next =>
    rintro ⟨some, -, final | whole⟩
    next => omega
    next => exact ⟨some, whole⟩
  next => exact fun ⟨positive, whole⟩ => ⟨positive, by omega, .inr whole⟩

theorem ends_met {front tail : List (Bytes × Nat)} {met : Nat} (inside : met ≤ tail.length)
    (here : front.length + met ∈ leaf_ends blake3 params (front ++ tail)) {later : Nat} (after : met < later) :
    front.length + later ∈ leaf_ends blake3 params (front ++ tail) ↔ later - met ∈ leaf_ends blake3 params (tail.drop met) := by
  obtain ⟨-, -, final | whole⟩ := mem_leaf_ends.mp here
  next =>
    rw [List.length_append] at final
    have none : tail.drop met = [] := List.drop_eq_nil_of_le (by omega)
    rw [none, mem_leaf_ends, mem_leaf_ends, List.length_append, List.length_nil]
    omega
  next =>
    rw [List.take_length_add_append] at whole
    have split : front ++ tail = (front ++ tail.take met) ++ tail.drop met := by rw [List.append_assoc, List.take_append_drop]
    have place : front.length + later = (front ++ tail.take met).length + (later - met) := by
      rw [List.length_append, List.length_take]
      omega
    rw [split, place, mem_leaf_ends_after whole _ (by omega)]

/-- Nodes end by what they have themselves: after an end the cut begins anew, and a change leaves the ends before it, and
those after the next one that the two have in common. -/
theorem partition_resynchronises (blake3 : Blake3) (params : ShapeParams) :
    ∃ ends : List (Bytes × Nat) → List Nat,
      (∀ keys, partition blake3 (keys.map Prod.fst) (keys.map Prod.snd) 0 params = .ok (ends keys)) ∧
      (∀ xs ys, xs.length ∈ ends (xs ++ ys) → ends (xs ++ ys) = ends xs ++ (ends ys).map (xs.length + ·)) ∧
      ∀ p a b s, (∀ stop, stop < p.length → (stop ∈ ends (p ++ a ++ s) ↔ stop ∈ ends (p ++ b ++ s))) ∧
        ∀ met, met ≤ s.length → p.length + a.length + met ∈ ends (p ++ a ++ s) → p.length + b.length + met ∈ ends (p ++ b ++ s) →
          ∀ later, met < later →
            (p.length + a.length + later ∈ ends (p ++ a ++ s) ↔ p.length + b.length + later ∈ ends (p ++ b ++ s)) := by
  refine ⟨leaf_ends blake3 params, partition_leaf, fun xs ys here => ?_, fun p a b s => ⟨fun stop early => ?_, ?_⟩⟩
  next =>
    obtain ⟨-, -, final | whole⟩ := mem_leaf_ends.mp here
    next =>
      rw [List.length_append] at final
      obtain rfl := List.length_eq_zero_iff.mp (show ys.length = 0 by omega)
      rw [List.append_nil]
      exact (List.append_nil _).symm
    next =>
      rw [List.take_left] at whole
      exact leaf_ends_resume whole ys
  next =>
    rw [List.append_assoc, List.append_assoc, ends_before early, ends_before early]
  next =>
    intro met inside first second later after
    rw [← List.length_append] at first second ⊢
    rw [ends_met inside first after, ← List.length_append, ends_met inside second after]

end Leaves

/-! ## Boundaries that are asked for -/

section Asking

/-- Light enough, and with keys enough, for the hash to decide. -/
def undecided (params : ShapeParams) (run : List (Bytes × Nat)) : Bool :=
  run_bytes Prod.snd run < params.max_node_bytes ∧ params.min_entries ≤ run.length ∧ run.length < params.max_entries

/-- Some node comes to a key at which the hash decides. -/
def Asked (level : Nat) (params : ShapeParams) (keys : List (Bytes × Nat)) : Prop :=
  ∃ front run key back, keys = front ++ (run ++ key :: back) ∧ Runs.Whole (node_ends blake3 level params) front ∧
    Runs.Unclosed (node_ends blake3 level params) run ∧ undecided params (run ++ [key])

variable {blake3} {level : Nat} {params : ShapeParams}

theorem ends_node_fails (run : List (Bytes × Nat)) (key : Bytes × Nat) :
    (∃ error, ends_node blake3 key.1 level params (run.length + 1) (run_bytes Prod.snd run + key.2) = .error error) ↔
      MAX_LEVEL < level ∧ undecided params (run ++ [key]) := by
  have bytes := run_bytes_concat Prod.snd run key
  have length : (run ++ [key]).length = run.length + 1 := List.length_append
  simp only [ends_node, undecided, bytes, length]
  by_cases heavy : params.max_node_bytes ≤ run_bytes Prod.snd run + key.2
  next => simp [heavy, not_lt.mpr heavy, pure, Except.pure]
  next =>
    by_cases few : run.length + 1 < params.min_entries
    next => simp [heavy, few, not_le.mpr few, pure, Except.pure]
    next =>
      by_cases many : params.max_entries ≤ run.length + 1
      next => simp [heavy, few, many, not_lt.mpr many, pure, Except.pure]
      next =>
        by_cases low : level ≤ MAX_LEVEL
        next => simp [heavy, few, many, is_boundary_ok blake3 _ params low, not_lt.mpr low]
        next => simp [heavy, few, many, is_boundary_high blake3 _ params low, not_lt.mp few, not_le.mp heavy, not_le.mp many, not_le.mp low]

theorem partition_loop_fails (keys : List (Bytes × Nat)) (state : Runs.State (Bytes × Nat)) :
    (∃ error, partition_loop blake3 level params keys (state.closed.flatten.length + state.pending.length) state.closed.flatten.length
      (run_bytes Prod.snd state.pending) (Runs.offsets 0 state.closed) = .error error) ↔
        MAX_LEVEL < level ∧ ∃ front key back, keys = front ++ key :: back ∧
          undecided params ((front.foldl (Runs.step (node_ends blake3 level params)) state).pending ++ [key]) := by
  induction keys generalizing state with
  | nil => simp [partition_loop, pure, Except.pure]
  | cons key keys ih =>
    have count : state.closed.flatten.length + state.pending.length - state.closed.flatten.length + 1 =
        state.pending.length + 1 := by omega
    have next := ih (Runs.step (node_ends blake3 level params) state key)
    have fails := @ends_node_fails blake3 level params state.pending key
    rw [partition_loop, count]
    have here : (∃ front other back, key :: keys = front ++ other :: back ∧
          undecided params ((front.foldl (Runs.step (node_ends blake3 level params)) state).pending ++ [other])) ↔
        undecided params (state.pending ++ [key]) ∨ ∃ front other back, keys = front ++ other :: back ∧
          undecided params ((front.foldl (Runs.step (node_ends blake3 level params))
            (Runs.step (node_ends blake3 level params) state key)).pending ++ [other]) := by
      constructor
      next =>
        rintro ⟨front, other, back, split, asks⟩
        cases front with
        | nil =>
          obtain ⟨rfl, rfl⟩ := List.cons.inj split
          exact .inl asks
        | cons first front =>
          obtain ⟨rfl, rfl⟩ := List.cons.inj split
          exact .inr ⟨front, other, back, rfl, asks⟩
      next =>
        rintro (asks | ⟨front, other, back, rfl, asks⟩)
        next => exact ⟨[], key, keys, rfl, asks⟩
        next => exact ⟨key :: front, other, back, rfl, asks⟩
    rw [here]
    rcases ends_node_closes blake3 Prod.fst Prod.snd level params state.pending key with decided | ⟨high, error, failed⟩
    next =>
      have calm : ¬ (MAX_LEVEL < level ∧ undecided params (state.pending ++ [key])) := by
        rw [← fails, decided]
        simp
      have later : MAX_LEVEL < level ∧ (undecided params (state.pending ++ [key]) = true ∨ ∃ front other back, keys = front ++ other :: back ∧
          undecided params ((front.foldl (Runs.step (node_ends blake3 level params))
            (Runs.step (node_ends blake3 level params) state key)).pending ++ [other]) = true) ↔
          MAX_LEVEL < level ∧ ∃ front other back, keys = front ++ other :: back ∧
          undecided params ((front.foldl (Runs.step (node_ends blake3 level params))
            (Runs.step (node_ends blake3 level params) state key)).pending ++ [other]) = true := by
        tauto
      rw [later, ← next, decided]
      by_cases closing : node_ends blake3 level params (state.pending ++ [key])
      next =>
        rw [Runs.step, if_pos closing]
        simp only [closing, bind, Except.bind, if_true]
        simp [Runs.offsets_append, Runs.offsets, run_bytes, Nat.add_assoc]
      next =>
        rw [Runs.step, if_neg closing]
        simp only [closing, bind, Except.bind]
        simp [run_bytes_concat, Nat.add_assoc]
    next =>
      rw [failed]
      refine iff_of_true ⟨error, rfl⟩ ⟨high, .inl (fails.mp ⟨error, failed⟩).2⟩

/-- Above the highest level, a key at which the hash decides makes it fail, and nothing else does. -/
theorem partition_fails (keys : List (Bytes × Nat)) :
    (∃ error, partition blake3 (keys.map Prod.fst) (keys.map Prod.snd) level params = .error error) ↔
      MAX_LEVEL < level ∧ Asked blake3 level params keys := by
  have loop := @partition_loop_fails blake3 level params keys ⟨[], []⟩
  have zipped : (keys.map Prod.fst).zip (keys.map Prod.snd) = keys := (List.zip_of_prod rfl rfl).symm
  have asked : (∃ front key back, keys = front ++ key :: back ∧
        undecided params ((front.foldl (Runs.step (node_ends blake3 level params)) ⟨[], []⟩).pending ++ [key])) ↔
      Asked blake3 level params keys := by
    constructor
    next =>
      rintro ⟨front, key, back, rfl, asks⟩
      refine ⟨(Runs.scan (node_ends blake3 level params) front).closed.flatten, _, key, back, ?_, Runs.whole_closed _ _,
        Runs.pending_unclosed _ _, asks⟩
      rw [← List.append_assoc, Runs.scan_flatten]
    next =>
      rintro ⟨front, run, key, back, rfl, whole, unclosed, asks⟩
      refine ⟨front ++ run, key, back, (List.append_assoc _ _ _).symm, ?_⟩
      rw [← Runs.scan, Runs.scan_resume whole.scan, Runs.scan_unclosed unclosed]
      exact asks
  rw [← asked, ← loop, partition]
  simp only [ensure, List.length_map, zipped, if_true]
  change _ ↔ ∃ error, partition_loop blake3 level params keys 0 0 0 [] = .error error
  cases partition_loop blake3 level params keys 0 0 0 [] with
  | error error => simp [bind, Except.bind]
  | ok result => simp [bind, Except.bind, pure, Except.pure]

end Asking

/-! ## Interior nodes -/

section Interior

variable {α : Type} {ends : List α → Bool}

theorem mem_settle {front back : List (List α)} {run : List α} (far : 2 ≤ back.flatten.length) (some : ∀ other ∈ back, other ≠ []) :
    run ∈ settle (front ++ run :: back) := by
  rcases List.eq_nil_or_concat' back with rfl | ⟨others, last, rfl⟩
  next => exact absurd far (by simp)
  next =>
    rcases List.eq_nil_or_concat' others with rfl | ⟨earlier, second, rfl⟩
    next =>
      have enough : 2 ≤ last.length := by simpa using far
      rw [List.nil_append, settle_concat, if_pos (show MIN_INTERIOR_CHILDREN ≤ last.length from enough)]
      simp
    next =>
      have split : front ++ run :: (earlier ++ [second] ++ [last]) = (front ++ run :: earlier) ++ [second, last] := by simp
      rw [split, settle_concat]
      split_ifs <;> simp

/-- Runs of two or more are left after the tail is settled, unless a run of one was ended with at least two values to come. -/
theorem settle_wide {values : List α} (several : 2 ≤ values.length) :
    (∀ run ∈ settle (Runs.scan ends values).all, 2 ≤ run.length) ↔
      ∀ front value back, values = front ++ value :: back → 2 ≤ back.length → Runs.Whole ends front → ¬ ends [value] := by
  have flat := Runs.scan_flatten ends values
  have nonempty := Runs.all_nonempty ends values
  rw [← Runs.all_flatten] at flat
  constructor
  next =>
    rintro wide front value back rfl far whole closing
    have alone : Runs.Whole ends (front ++ ([] ++ [value])) :=
      .concat whole (fun shorter initial some => absurd (List.prefix_nil.mp initial) some) closing
    have single : (Runs.scan ends [value]).all = [[value]] := by
      rw [Runs.scan, List.foldl_cons, List.foldl_nil, Runs.step_all_open]
      rfl
    have cut : (Runs.scan ends (front ++ value :: back)).all =
        (Runs.scan ends front).all ++ [value] :: (Runs.scan ends back).all := by
      rw [List.append_cons, Runs.all_resume (by simpa using alone.scan), Runs.all_resume whole.scan, single, List.append_assoc,
        List.singleton_append]
    have back_flat := Runs.scan_flatten ends back
    rw [← Runs.all_flatten] at back_flat
    have member := @mem_settle _ (Runs.scan ends front).all _ [value] (by rwa [back_flat]) (Runs.all_nonempty ends back)
    have long := wide [value] (cut ▸ member)
    simp at long
  next =>
    intro apart
    have wide {before after : List (List α)} {run : List α} (cut : (Runs.scan ends values).all = before ++ run :: after)
        (far : 2 ≤ after.flatten.length) : 2 ≤ run.length := by
      have whole := Runs.whole_before cut
      have some := List.length_pos_of_ne_nil (nonempty run (by rw [cut]; simp))
      by_contra short
      obtain ⟨value, rfl⟩ := List.length_eq_one_iff.mp (show run.length = 1 by omega)
      have closing : ends [value] := by
        refine @Runs.dropLast_closed _ ends values _ ?_
        rw [cut, List.dropLast_append_of_ne_nil (by simp)]
        rw [List.dropLast_cons_of_ne_nil (by rintro rfl; simp at far)]
        simp
      refine apart before.flatten value after.flatten ?_ far whole closing
      rw [← flat, cut]
      simp
    rcases List.eq_nil_or_concat' (Runs.scan ends values).all with none | ⟨front, last, cut⟩
    next =>
      rw [none] at flat
      rw [← flat] at several
      simp at several
    next =>
      rcases List.eq_nil_or_concat' front with rfl | ⟨earlier, second, rfl⟩
      next =>
        have only : last = values := by simpa [cut] using flat
        rw [cut, settle_few (by simp)]
        intro run member
        rw [List.mem_singleton.mp member, only]
        exact several
      next =>
        have last_some := List.length_pos_of_ne_nil (nonempty last (by simp [cut]))
        have second_some := List.length_pos_of_ne_nil (nonempty second (by simp [cut]))
        have pair : (Runs.scan ends values).all = earlier ++ [second, last] := by simpa using cut
        have others : ∀ run ∈ earlier, 2 ≤ run.length := by
          intro run member
          obtain ⟨before, after, rfl⟩ := List.append_of_mem member
          refine @wide before (after ++ [second, last]) run (by simp [pair]) ?_
          simp only [List.flatten_append, List.flatten_cons, List.flatten_nil, List.length_append, List.length_nil]
          omega
        rw [pair, settle_concat, show MIN_INTERIOR_CHILDREN = 2 from rfl]
        split_ifs with enough spare
        next =>
          have own : 2 ≤ second.length := @wide earlier [last] second pair (by simpa using enough)
          refine List.forall_mem_append.mpr ⟨others, List.forall_mem_cons.mpr ⟨own, List.forall_mem_singleton.mpr enough⟩⟩
        next =>
          have given : second.getLast?.toList.length = 1 := by
            cases second with
            | nil => simp at second_some
            | cons head tail => rfl
          refine List.forall_mem_append.mpr ⟨others, List.forall_mem_cons.mpr ⟨?_, List.forall_mem_singleton.mpr ?_⟩⟩
          next =>
            rw [List.length_dropLast]
            omega
          next =>
            rw [List.length_append, given]
            omega
        next =>
          refine List.forall_mem_append.mpr ⟨others, List.forall_mem_singleton.mpr ?_⟩
          rw [List.length_append]
          omega

end Interior

/-- Above the leaves no node has a single key, and there are at most half as many nodes as keys, exactly where no key, with two
or more to come, ends a node that begins with it (or where it fails, asked for a boundary above the highest level). -/
theorem interior_wide_exact (blake3 : Blake3) (params : ShapeParams) {level : Nat} (above : 1 ≤ level) {keys : List (Bytes × Nat)}
    (several : 2 ≤ keys.length) :
    (∀ ends, partition blake3 (keys.map Prod.fst) (keys.map Prod.snd) level params = .ok ends →
      (∀ run ∈ Runs.slices keys 0 ends, 2 ≤ run.length) ∧ ends.length * 2 ≤ keys.length) ↔
      (∀ front key back, keys = front ++ key :: back → 2 ≤ back.length → Runs.Whole (node_ends blake3 level params) front →
        ¬ node_ends blake3 level params [key]) ∨ MAX_LEVEL < level ∧ Asked blake3 level params keys := by
  rw [← settle_wide several, ← partition_fails]
  have flat := partition_runs_flatten blake3 Prod.fst Prod.snd level params keys
  have runs : partition_runs blake3 Prod.fst Prod.snd level params keys = settle (Runs.scan (node_ends blake3 level params) keys).all := by
    exact if_pos above
  rw [runs] at flat
  rcases partition_ok blake3 Prod.fst Prod.snd level params keys with cut | ⟨-, error, failed⟩
  next =>
    have slices := Runs.slices_offsets [] (settle (Runs.scan (node_ends blake3 level params) keys).all)
    rw [List.nil_append, flat] at slices
    rw [runs] at cut
    constructor
    next =>
      intro wide
      obtain ⟨wide, -⟩ := wide _ cut
      rw [List.length_nil] at slices
      rw [slices] at wide
      exact .inl wide
    next =>
      rintro (wide | ⟨error, failed⟩)
      next =>
        intro ends returned
        obtain rfl := Except.ok.inj (cut.symm.trans returned)
        have few := Runs.length_flatten_ge wide
        rw [flat] at few
        refine ⟨fun run member => wide run ?_, by rwa [Runs.offsets_length]⟩
        rw [List.length_nil] at slices
        rwa [slices] at member
      next =>
        rw [cut] at failed
        cases failed
  next => exact iff_of_true (fun ends returned => by rw [failed] at returned; cases returned) (.inr ⟨error, failed⟩)

def threeKeys : List (Bytes × Nat) := [([0x61], 45), ([0x62], 45), ([0x63], 45)]

theorem interior_wide_exact_three :
    2 ≤ threeKeys.length ∧
      ∀ ends, partition (.ofTable []) (threeKeys.map Prod.fst) (threeKeys.map Prod.snd) 1 PRODUCTION_SHAPE = .ok ends →
        (∀ run ∈ Runs.slices threeKeys 0 ends, 2 ≤ run.length) ∧ ends.length * 2 ≤ threeKeys.length := by
  refine ⟨by decide, ?_⟩
  refine (interior_wide_exact (.ofTable []) PRODUCTION_SHAPE (le_refl 1) (by decide)).mpr (.inl fun front key back split far whole => ?_)
  have lengths := congrArg List.length split
  simp only [threeKeys, List.length_append, List.length_cons, List.length_nil] at lengths
  obtain rfl := List.length_eq_zero_iff.mp (show front.length = 0 by omega)
  obtain ⟨rfl, -⟩ := List.cons.inj split
  decide

/-- A node is full with one entry of 64 bytes. -/
def tightShape : ShapeParams where
  domain := SPLIT_DOMAIN
  period := 2
  min_entries := 2
  max_entries := 4
  max_node_bytes := 64
  entries_ordered := by decide
  period_large := by decide
  node_bytes_large := by decide

/-- No digest is asked for. -/
theorem lonely_first :
    partition (.ofTable []) [[0x61], [0x62], [0x63]] [64, 64, 64] 1 tightShape = .ok [1, 3] ∧
      Runs.slices [([0x61], 64), ([0x62], 64), ([0x63], 64)] 0 [1, 3] = [[([0x61], 64)], [([0x62], 64), ([0x63], 64)]] ∧
        validate_node_level 1 1 "tree" ≠ .ok () :=
  ⟨by decide, by decide, by decide⟩

end LedgerVcs

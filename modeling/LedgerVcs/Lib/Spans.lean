import LedgerVcs.Lib.Rose

set_option autoImplicit false

/-! Files cut into pieces by trees that state how long each child is. -/

namespace Spans

variable {L β γ δ : Type}

/-- A piece of a file from `start` on. It is stated to be of some size, and it is read for ranges that begin
before `bound`. -/
structure Piece (β : Type) where
  start : Nat
  size : Nat
  bound : Nat
  data : List β

/-! ## Pieces of a tree -/

/-- Each value after the sizes of those before it. -/
def place : (base : Nat) → List (Nat × γ) → List (Nat × Nat × γ)
  | _, [] => []
  | base, (size, value) :: rest => (base, size, value) :: place (base + size) rest

theorem place_map (f : γ → δ) (base : Nat) (values : List (Nat × γ)) :
    place base (values.map fun value => (value.1, f value.2)) =
      (place base values).map fun value => (value.1, value.2.1, f value.2.2) := by
  induction values generalizing base with
  | nil => rfl
  | cons value values ih => exact congrArg _ (ih (base + value.1))

theorem mem_place {base offset size : Nat} {value : γ} {values : List (Nat × γ)}
    (member : (offset, size, value) ∈ place base values) : base ≤ offset ∧ (size, value) ∈ values := by
  induction values generalizing base with
  | nil => cases member
  | cons first values ih =>
    rcases List.mem_cons.mp member with same | later
    next =>
      obtain ⟨rfl, rfl, rfl⟩ := same
      exact ⟨le_refl _, List.mem_cons_self⟩
    next =>
      obtain ⟨after, listed⟩ := ih later
      exact ⟨by omega, List.mem_cons_of_mem _ listed⟩

theorem place_apart (base : Nat) (values : List (Nat × γ)) :
    (place base values).Pairwise fun earlier later => earlier.1 + earlier.2.1 ≤ later.1 := by
  induction values generalizing base with
  | nil => exact List.Pairwise.nil
  | cons value values ih =>
    exact List.pairwise_cons.mpr ⟨fun later member => (mem_place member).1, ih (base + value.1)⟩

/-- Every stated size is positive, and no data is empty. -/
inductive Positive : Rose L Nat (Nat × List β) → Prop
  | leaf (items : List (Nat × List β)) (positive : ∀ item ∈ items, 0 < item.1 ∧ item.2 ≠ []) : Positive (.leaf items)
  | node (label : L) (children : List (Nat × Rose L Nat (Nat × List β))) (positive : ∀ child ∈ children, 0 < child.1)
    (inner : ∀ child ∈ children, Positive child.2) : Positive (.node label children)

/-- The pieces below a node at some offset, whose own span ends at `bound`. -/
def pieces : Rose L Nat (Nat × List β) → (base bound : Nat) → List (Piece β) :=
  Rose.fold
    (fun items base bound => (place base items).map fun item =>
      ⟨item.1, item.2.1, min bound (item.1 + item.2.1), item.2.2⟩)
    fun _ children base bound => (place base children).flatMap fun child =>
      child.2.2 child.1 (min bound (child.1 + child.2.1))

@[simp] theorem pieces_leaf (items : List (Nat × List β)) (base bound : Nat) :
    pieces (.leaf items : Rose L Nat (Nat × List β)) base bound =
      (place base items).map fun item => ⟨item.1, item.2.1, min bound (item.1 + item.2.1), item.2.2⟩ := by
  rw [pieces, Rose.fold_leaf]

@[simp] theorem pieces_node (label : L) (children : List (Nat × Rose L Nat (Nat × List β))) (base bound : Nat) :
    pieces (.node label children) base bound = (place base children).flatMap fun child =>
      pieces child.2.2 child.1 (min bound (child.1 + child.2.1)) := by
  rw [pieces, Rose.fold_node, place_map (Rose.fold _ _), List.flatMap_map]

/-- What holds of every piece. -/
structure Piece.Placed (base bound : Nat) (piece : Piece β) : Prop where
  from_base : base ≤ piece.start
  within : piece.bound ≤ bound
  own : piece.bound ≤ piece.start + piece.size
  sized : 0 < piece.size
  bounded : 0 < piece.bound
  filled : 0 < piece.data.length

variable {tree : Rose L Nat (Nat × List β)}

theorem pieces_placed (positive : Positive tree) {base bound : Nat} (room : 0 < bound) :
    ∀ piece ∈ pieces tree base bound, piece.Placed base bound := by
  induction tree generalizing base bound with
  | leaf items =>
    cases positive with
    | leaf _ positive =>
      rw [pieces_leaf]
      intro piece member
      obtain ⟨⟨offset, size, data⟩, there, rfl⟩ := List.mem_map.mp member
      obtain ⟨after, listed⟩ := mem_place there
      obtain ⟨sized, filled⟩ := positive _ listed
      have some := List.length_pos_of_ne_nil filled
      simp only at sized
      refine ⟨after, min_le_left _ _, min_le_right _ _, sized, ?_, some⟩
      simp only
      omega
  | node label children ih =>
    cases positive with
    | node _ _ positive inner =>
      rw [pieces_node]
      intro piece member
      obtain ⟨⟨offset, size, child⟩, there, inside⟩ := List.mem_flatMap.mp member
      obtain ⟨after, listed⟩ := mem_place there
      have sized := positive _ listed
      simp only at sized inside
      have placed := ih _ listed (inner _ listed) (by omega) piece inside
      have from_base := placed.from_base
      have within := placed.within
      exact { placed with from_base := by omega, within := by omega }

theorem pieces_apart (positive : Positive tree) {base bound : Nat} (room : 0 < bound) :
    (pieces tree base bound).Pairwise fun earlier later => earlier.bound ≤ later.start := by
  induction tree generalizing base bound with
  | leaf items =>
    rw [pieces_leaf, List.pairwise_map]
    refine (place_apart base items).imp fun {earlier later} before => ?_
    simp only
    omega
  | node label children ih =>
    cases positive with
    | node _ _ positive inner =>
      rw [pieces_node, List.pairwise_flatMap]
      have fits (child : Nat × Nat × Rose L Nat (Nat × List β)) (member : child ∈ place base children) :
          Positive child.2.2 ∧ 0 < min bound (child.1 + child.2.1) := by
        obtain ⟨offset, size, deeper⟩ := child
        obtain ⟨-, listed⟩ := mem_place member
        have sized := positive _ listed
        simp only at sized ⊢
        exact ⟨inner _ listed, by omega⟩
      refine ⟨fun child member => ?_, (place_apart base children).imp_of_mem ?_⟩
      next =>
        obtain ⟨deeper, room⟩ := fits child member
        exact ih _ (mem_place member).2 deeper room
      next =>
        intro earlier later first second before left leftMember right rightMember
        obtain ⟨deeper, room⟩ := fits earlier first
        obtain ⟨deeper', room'⟩ := fits later second
        have within := (pieces_placed deeper room left leftMember).within
        have from_base := (pieces_placed deeper' room' right rightMember).from_base
        omega

/-! ## Ranges of pieces -/

def Piece.Visited (start stop : Nat) (piece : Piece β) : Prop := start < piece.bound ∧ piece.start < stop

instance (start stop : Nat) (piece : Piece β) : Decidable (piece.Visited start stop) := inferInstanceAs (Decidable (_ ∧ _))

/-- What a piece gives to a range: all of it, or a slice. -/
def Piece.part (start stop : Nat) (piece : Piece β) : List β :=
  let first := start - piece.start
  let last := min (stop - piece.start) piece.size
  if first = 0 ∧ last = piece.size then piece.data else (piece.data.take last).drop first

def read (pieces : List (Piece β)) (start stop : Nat) : List β :=
  (pieces.filter fun piece => piece.Visited start stop).flatMap (Piece.part start stop)

def Piece.given (start stop : Nat) (piece : Piece β) : List β :=
  if piece.Visited start stop then piece.part start stop else []

@[simp] theorem read_nil (start stop : Nat) : read ([] : List (Piece β)) start stop = [] := rfl

@[simp] theorem read_cons (piece : Piece β) (pieces : List (Piece β)) (start stop : Nat) :
    read (piece :: pieces) start stop = piece.given start stop ++ read pieces start stop := by
  by_cases visited : piece.Visited start stop <;> simp [read, Piece.given, visited]

theorem read_empty {start stop : Nat} (none : stop ≤ start) (pieces : List (Piece β)) : read pieces start stop = [] := by
  induction pieces with
  | nil => rfl
  | cons piece pieces ih =>
    rw [read_cons, ih, List.append_nil, Piece.given]
    by_cases visited : piece.Visited start stop
    next =>
      obtain ⟨above, below⟩ := visited
      rw [if_pos ⟨above, below⟩, Piece.part, if_neg (by omega), List.drop_eq_nil_iff, List.length_take]
      omega
    next => rw [if_neg visited]

/-! ## Files without seams -/

/-- No span cuts the piece's bytes short of the file's end, and they are no more than stated unless the file ends
first. -/
structure Piece.Fits (total : Nat) (piece : Piece β) : Prop where
  reached : min total (piece.start + piece.data.length) ≤ piece.bound
  stated : piece.start + piece.size ≤ total → piece.data.length ≤ piece.size

/-- Every piece that begins before the file's end fits and begins where the bytes before it end, and the last ones
end with the file. -/
def Seamless (total : Nat) : (position : Nat) → List (Piece β) → Prop
  | position, [] => position = total
  | position, piece :: pieces =>
    if piece.start < total then
      piece.start = position ∧ piece.Fits total ∧ Seamless total (min total (piece.start + piece.data.length)) pieces
    else Seamless total position pieces

/-- The bytes of a piece that are before the file's end. -/
def Piece.content (total : Nat) (piece : Piece β) : List β := piece.data.take (total - piece.start)

section Seams

variable {total : Nat} {piece : Piece β} {pieces : List (Piece β)}

theorem Piece.Fits.given (fits : piece.Fits total) (before : piece.start < total) {start stop : Nat}
    (inside : stop ≤ total) :
    piece.given start stop = ((piece.content total).take (stop - piece.start)).drop (start - piece.start) := by
  have reached := fits.reached
  have stated := fits.stated
  have whole : (piece.content total).take (stop - piece.start) = piece.data.take (stop - piece.start) := by
    rw [Piece.content, List.take_take, min_eq_left (by omega)]
  rw [whole, Piece.given]
  by_cases visited : piece.Visited start stop
  next =>
    obtain ⟨above, below⟩ := visited
    rw [if_pos ⟨above, below⟩, Piece.part]
    by_cases all : start - piece.start = 0 ∧ min (stop - piece.start) piece.size = piece.size
    next => rw [if_pos all, all.1, List.drop_zero, List.take_of_length_le (by omega)]
    next =>
      rw [if_neg all]
      by_cases short : stop - piece.start ≤ piece.size
      next => rw [min_eq_left short]
      next =>
        rw [List.take_of_length_le (by omega), List.take_of_length_le (by omega)]
  next =>
    rw [if_neg visited, eq_comm, List.drop_eq_nil_iff, List.length_take]
    simp only [Piece.Visited] at visited
    omega

theorem Seamless.read {position : Nat} (seamless : Seamless total position pieces) {start stop : Nat}
    (inside : stop ≤ total) :
    Spans.read pieces start stop =
      ((pieces.flatMap (Piece.content total)).take (stop - position)).drop (start - position) := by
  induction pieces generalizing position with
  | nil => simp
  | cons piece pieces ih =>
    rw [Seamless] at seamless
    rw [read_cons, List.flatMap_cons]
    by_cases before : piece.start < total
    next =>
      rw [if_pos before] at seamless
      obtain ⟨rfl, fits, rest⟩ := seamless
      have length : (piece.content total).length = min total (piece.start + piece.data.length) - piece.start := by
        rw [Piece.content, List.length_take]
        omega
      rw [fits.given before inside, ih rest, List.take_append, List.drop_append, List.length_take, length]
      congr 1
      by_cases past : min total (piece.start + piece.data.length) ≤ stop
      next =>
        have taken : stop - piece.start - (min total (piece.start + piece.data.length) - piece.start) =
            stop - min total (piece.start + piece.data.length) := by omega
        have dropped : start - piece.start -
            min (stop - piece.start) (min total (piece.start + piece.data.length) - piece.start) =
              start - min total (piece.start + piece.data.length) := by omega
        rw [taken, dropped]
      next =>
        have none : stop - min total (piece.start + piece.data.length) = 0 := by omega
        have none' : stop - piece.start - (min total (piece.start + piece.data.length) - piece.start) = 0 := by omega
        rw [none, none']
        simp
    next =>
      rw [if_neg before] at seamless
      have empty : piece.content total = [] := by
        rw [Piece.content, Nat.sub_eq_zero_of_le (by omega), List.take_zero]
      have unseen : piece.given start stop = [] := by
        rw [Piece.given, if_neg]
        simp only [Piece.Visited]
        omega
      rw [empty, unseen, List.nil_append, List.nil_append, ih seamless]

theorem Seamless.length {position : Nat} (seamless : Seamless total position pieces) :
    (pieces.flatMap (Piece.content total)).length = total - position := by
  induction pieces generalizing position with
  | nil =>
    obtain rfl : position = total := seamless
    simp
  | cons piece pieces ih =>
    rw [Seamless] at seamless
    rw [List.flatMap_cons, List.length_append, Piece.content, List.length_take]
    by_cases before : piece.start < total
    next =>
      rw [if_pos before] at seamless
      obtain ⟨rfl, -, rest⟩ := seamless
      rw [ih rest]
      omega
    next =>
      rw [if_neg before] at seamless
      rw [ih seamless]
      omega

/-! ## Seams show in some length -/

theorem Piece.length_given (_sized : 0 < piece.size) (_own : piece.bound ≤ piece.start + piece.size) (start stop : Nat) :
    (piece.given start stop).length =
      if start < piece.bound ∧ piece.start < stop then
        if start ≤ piece.start ∧ piece.start + piece.size ≤ stop then piece.data.length
        else min (min (stop - piece.start) piece.size) piece.data.length - (start - piece.start)
      else 0 := by
  rw [Piece.given]
  by_cases visited : piece.Visited start stop
  next =>
    obtain ⟨above, below⟩ := visited
    rw [if_pos ⟨above, below⟩, if_pos ⟨above, below⟩, Piece.part]
    have same : (start - piece.start = 0 ∧ min (stop - piece.start) piece.size = piece.size) ↔
        start ≤ piece.start ∧ piece.start + piece.size ≤ stop := by omega
    simp only [same]
    split
    next => rfl
    next => rw [List.length_drop, List.length_take]
  next =>
    rw [if_neg visited, List.length_nil, if_neg]
    exact visited

/-- A range has at least as many bytes as the two parts of it. -/
theorem Piece.given_split (sized : 0 < piece.size) (own : piece.bound ≤ piece.start + piece.size) {start middle stop : Nat}
    (early : start ≤ middle) (late : middle ≤ stop) :
    (piece.given start middle).length + (piece.given middle stop).length ≤ (piece.given start stop).length := by
  simp only [Piece.length_given sized own]
  split_ifs <;> omega

theorem read_split (placed : ∀ piece ∈ pieces, 0 < piece.size ∧ piece.bound ≤ piece.start + piece.size)
    {start middle stop : Nat} (early : start ≤ middle) (late : middle ≤ stop) :
    (read pieces start middle).length + (read pieces middle stop).length ≤ (read pieces start stop).length := by
  induction pieces with
  | nil => simp
  | cons piece pieces ih =>
    obtain ⟨⟨sized, own⟩, others⟩ := List.forall_mem_cons.mp placed
    have first := piece.given_split sized own early late
    have rest := ih others
    simp only [read_cons, List.length_append]
    omega

theorem read_unseen {start stop : Nat} (unseen : ∀ piece ∈ pieces, stop ≤ piece.start) : read pieces start stop = [] := by
  have none : (pieces.filter fun piece => piece.Visited start stop) = [] := by
    refine List.filter_eq_nil_iff.mpr fun piece member visited => ?_
    have above := unseen piece member
    have below := (of_decide_eq_true visited).2
    omega
  rw [read, none, List.flatMap_nil]

/-- When every range of a file has its length, the file has no seams. -/
theorem seamless_of_lengths {base bound position : Nat} (placed : ∀ piece ∈ pieces, piece.Placed base bound)
    (apart : pieces.Pairwise fun earlier later => earlier.bound ≤ later.start) (within : position ≤ total)
    (lengths : ∀ start stop, start ≤ stop → stop ≤ total →
      (read pieces start stop).length = stop - max start position) : Seamless total position pieces := by
  induction pieces generalizing position with
  | nil =>
    have none := lengths 0 total (Nat.zero_le _) (le_refl _)
    simp only [read_nil, List.length_nil] at none
    change position = total
    omega
  | cons piece pieces ih =>
    obtain ⟨⟨-, -, own, sized, bounded, filled⟩, others⟩ := List.forall_mem_cons.mp placed
    obtain ⟨behind, later⟩ := List.pairwise_cons.mp apart
    have formula := Piece.length_given sized own
    simp only [read_cons, List.length_append] at lengths
    rw [Seamless]
    by_cases before : piece.start < total
    next =>
      rw [if_pos before]
      -- no part of the file can spare what it has, so the piece splits exactly
      have split (start middle stop : Nat) (early : start ≤ middle) (late : middle ≤ stop) (inside : stop ≤ total) :
          (piece.given start stop).length = (piece.given start middle).length + (piece.given middle stop).length := by
        have first := piece.given_split sized own early late
        have rest := read_split (fun other member => ⟨(others other member).sized, (others other member).own⟩) early late
        have whole := lengths start stop (by omega) inside
        have left := lengths start middle early (by omega)
        have right := lengths middle stop late inside
        omega
      have reads : piece.start < piece.bound := by
        by_contra unread
        have parts := split 0 piece.bound (piece.start + 1) (Nat.zero_le _) (by omega) (by omega)
        simp only [formula] at parts
        split_ifs at parts <;> omega
      have first : 0 < (piece.given piece.start (piece.start + 1)).length := by
        rw [formula]
        split_ifs <;> omega
      have after : position ≤ piece.start := by
        have single := lengths piece.start (piece.start + 1) (by omega) (by omega)
        omega
      have start : piece.start = position := by
        by_contra gap
        have single := lengths position (position + 1) (by omega) (by omega)
        have unseen := @read_unseen _ pieces position (position + 1) fun other member => by
          have next := behind other member
          omega
        rw [unseen, formula, if_neg (by omega), List.length_nil] at single
        omega
      have stated : piece.start + piece.size ≤ total → piece.data.length ≤ piece.size := by
        intro ends
        have whole := lengths piece.start (piece.start + piece.size) (by omega) ends
        rw [formula, if_pos (by omega), if_pos (by omega)] at whole
        omega
      have reached : min total (piece.start + piece.data.length) ≤ piece.bound := by
        by_contra short
        have parts := split piece.start piece.bound (min total (piece.start + piece.data.length)) (by omega) (by omega)
          (by omega)
        simp only [formula] at parts
        split_ifs at parts <;> omega
      have fits : piece.Fits total := ⟨reached, stated⟩
      refine ⟨start, fits, ih others later (by omega) fun start stop order inside => ?_⟩
      have whole := lengths start stop order inside
      rw [fits.given before inside, List.length_drop, List.length_take, Piece.content, List.length_take] at whole
      omega
    next =>
      rw [if_neg before]
      refine ih others later within fun start stop order inside => ?_
      have whole := lengths start stop order inside
      rw [formula, if_neg (by omega)] at whole
      omega

end Seams

theorem seamless_empty (parts : List (Piece β)) : Seamless 0 0 parts := by
  induction parts with
  | nil => rfl
  | cons piece parts ih =>
    rw [Seamless, if_neg (Nat.not_lt_zero _)]
    exact ih

/-- The ranges of a file are those of the whole exactly when it has no seams. -/
theorem ranges_exact (positive : Positive tree) (total : Nat) :
    ((read (pieces tree 0 total) 0 total).length = total ∧ ∀ start stop, start ≤ stop → stop ≤ total →
      read (pieces tree 0 total) start stop = ((read (pieces tree 0 total) 0 total).take stop).drop start) ↔
      Seamless total 0 (pieces tree 0 total) := by
  constructor
  next =>
    rintro ⟨whole, slices⟩
    by_cases room : 0 < total
    next =>
      refine seamless_of_lengths (pieces_placed positive room) (pieces_apart positive room) (Nat.zero_le _) ?_
      intro start stop order inside
      rw [slices start stop order inside, List.length_drop, List.length_take]
      omega
    next =>
      obtain rfl : total = 0 := by omega
      exact seamless_empty _
  next =>
    intro seamless
    have length := seamless.length
    have whole : read (pieces tree 0 total) 0 total = (pieces tree 0 total).flatMap (Piece.content total) := by
      rw [seamless.read (le_refl _), List.drop_zero, List.take_of_length_le (by omega)]
    rw [whole]
    exact ⟨length, fun start stop _ inside => by rw [seamless.read inside, Nat.sub_zero, Nat.sub_zero]⟩

/-! ## Honest trees -/

/-- Every stated size is the number of bytes below it. -/
inductive Honest : Rose L Nat (Nat × List β) → Prop
  | leaf (items : List (Nat × List β)) (sizes : ∀ item ∈ items, item.1 = item.2.length) : Honest (.leaf items)
  | node (label : L) (children : List (Nat × Rose L Nat (Nat × List β)))
    (sizes : ∀ child ∈ children, child.1 = (child.2.items.map Prod.fst).sum)
    (inner : ∀ child ∈ children, Honest child.2) : Honest (.node label children)

theorem place_append (base : Nat) (first second : List (Nat × γ)) :
    place base (first ++ second) = place base first ++ place (base + (first.map Prod.fst).sum) second := by
  induction first generalizing base with
  | nil => rfl
  | cons value first ih =>
    rw [List.cons_append, place, place, ih, List.cons_append, List.map_cons, List.sum_cons, Nat.add_assoc]

theorem place_ends {base offset size : Nat} {value : γ} {values : List (Nat × γ)}
    (member : (offset, size, value) ∈ place base values) : offset + size ≤ base + (values.map Prod.fst).sum := by
  induction values generalizing base with
  | nil => cases member
  | cons first values ih =>
    rw [List.map_cons, List.sum_cons]
    rcases List.mem_cons.mp member with same | later
    next =>
      obtain ⟨rfl, rfl, rfl⟩ := same
      omega
    next =>
      have ends := ih later
      omega

def whole_piece (item : Nat × Nat × List β) : Piece β := ⟨item.1, item.2.1, item.1 + item.2.1, item.2.2⟩

theorem Honest.pieces (honest : Honest tree) {base bound : Nat} (room : base + (tree.items.map Prod.fst).sum ≤ bound) :
    Spans.pieces tree base bound = (place base tree.items).map whole_piece := by
  induction honest generalizing base bound with
  | leaf items sizes =>
    rw [pieces_leaf, Rose.items_leaf]
    rw [Rose.items_leaf] at room
    refine List.map_congr_left fun item member => ?_
    obtain ⟨offset, size, data⟩ := item
    have ends := place_ends member
    have edge : min bound (offset + size) = offset + size := by omega
    rw [whole_piece, edge]
  | node label children sizes inner ih =>
    rw [pieces_node, Rose.items_node]
    rw [Rose.items_node] at room
    clear inner
    induction children generalizing base with
    | nil => rfl
    | cons child children rest =>
      obtain ⟨size, deeper⟩ := child
      obtain ⟨own, others⟩ := List.forall_mem_cons.mp sizes
      obtain ⟨first, later⟩ := List.forall_mem_cons.mp ih
      simp only at own first
      rw [List.flatMap_cons, List.map_append, List.sum_append, ← own] at room
      have edge : min bound (base + size) = base + size := by omega
      rw [place, List.flatMap_cons, List.flatMap_cons, place_append, List.map_append, rest others later (by omega), edge,
        first (by omega), ← own]

theorem Honest.sizes (honest : Honest tree) : ∀ item ∈ tree.items, item.1 = item.2.length := by
  induction honest with
  | leaf items sizes => rwa [Rose.items_leaf]
  | node label children sizes inner ih =>
    rw [Rose.items_node]
    intro item member
    obtain ⟨child, there, inside⟩ := List.mem_flatMap.mp member
    exact ih child there item inside

theorem seamless_items {items : List (Nat × List β)} (sizes : ∀ item ∈ items, item.1 = item.2.length) {base total : Nat}
    (whole : base + (items.map Prod.fst).sum = total) : Seamless total base ((place base items).map whole_piece) := by
  induction items generalizing base with
  | nil => simpa [place, Seamless] using whole
  | cons item items ih =>
    obtain ⟨size, data⟩ := item
    obtain ⟨own, others⟩ := List.forall_mem_cons.mp sizes
    simp only at own
    rw [List.map_cons, List.sum_cons] at whole
    have rest := @ih others (base + size) (by omega)
    rw [place, List.map_cons, Seamless]
    simp only [whole_piece]
    have ends : min total (base + data.length) = base + size := by omega
    split
    next =>
      rw [ends]
      exact ⟨trivial, ⟨by simp only; omega, fun _ => by simp only; omega⟩, rest⟩
    next =>
      obtain rfl : size = 0 := by omega
      exact rest

theorem content_items {items : List (Nat × List β)} (sizes : ∀ item ∈ items, item.1 = item.2.length) {base total : Nat}
    (whole : base + (items.map Prod.fst).sum = total) :
    ((place base items).map whole_piece).flatMap (Piece.content total) = items.flatMap Prod.snd := by
  induction items generalizing base with
  | nil => rfl
  | cons item items ih =>
    obtain ⟨size, data⟩ := item
    obtain ⟨own, others⟩ := List.forall_mem_cons.mp sizes
    simp only at own
    rw [List.map_cons, List.sum_cons] at whole
    rw [place, List.map_cons, List.flatMap_cons, List.flatMap_cons, ih others (by omega), Piece.content, whole_piece,
      List.take_of_length_le (by simp only; omega)]

theorem Honest.read (honest : Honest tree) {total : Nat} (whole : (tree.items.map Prod.fst).sum = total) {start stop : Nat}
    (inside : stop ≤ total) :
    Spans.read (Spans.pieces tree 0 total) start stop = ((tree.items.flatMap Prod.snd).take stop).drop start := by
  have flat : Spans.pieces tree 0 total = (place 0 tree.items).map whole_piece := honest.pieces (by omega)
  have seamless := seamless_items honest.sizes ((Nat.zero_add _).trans whole)
  rw [flat, seamless.read inside, content_items honest.sizes ((Nat.zero_add _).trans whole), Nat.sub_zero, Nat.sub_zero]

end Spans

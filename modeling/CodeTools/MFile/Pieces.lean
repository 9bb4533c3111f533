import CodeTools.MFile.Source

/-!
# The pieces that line reads deliver

With a buffer that has room for everything a call delivers a piece that depends
on the source alone. A carriage return before any byte but a line feed or another
carriage return comes twice, and at the end it comes with a line feed that was
never written.
-/

namespace code_tools.mfile

open cmem machine

namespace Source

variable {s t : Source} {buf : List UInt8} {d fuel : Nat} {n : Int}

/-! ## One piece -/

/-- What a call adds after a carriage return, and the source it leaves. -/
def after_return : List UInt8 → List UInt8 × Source
  | [] => ([13, 10], ⟨0, []⟩)
  | c :: left => if c = 10 then ([13, 10], ⟨10, left⟩) else ([13], ⟨c, left⟩)

/-- What a call that holds nothing back delivers. -/
def scan : List UInt8 → List UInt8 × Source
  | [] => ([], ⟨10, []⟩)
  | c :: left =>
    if c = 13 then after_return left
    else if c = 10 then ([10], ⟨10, left⟩)
    else (c :: (scan left).1, (scan left).2)

/-- What a call delivers, and the source it leaves. A byte that was held back is
    taken to come before a carriage return. -/
def delivery (s : Source) : List UInt8 × Source :=
  if s.held = 10 then scan s.left
  else if s.held = 13 then after_return s.left
  else if s.held = 0 then ([], ⟨13, s.left⟩)
  else (s.held :: (after_return s.left).1, (after_return s.left).2)

/-- Passes of the line loop that are enough for a piece. -/
def passes (s : Source) : Nat := if s.held = 10 then s.left.length + 1 else 2

theorem after_return_feed (left : List UInt8) : after_return (10 :: left) = ([13, 10], ⟨10, left⟩) := rfl

theorem after_return_cons {c : UInt8} (hfeed : c ≠ 10) (left : List UInt8) :
    after_return (c :: left) = ([13], ⟨c, left⟩) := by
  rw [after_return, if_neg hfeed]

theorem after_return_ne (left : List UInt8) : (after_return left).1 ≠ [] := by
  unfold after_return
  cases left with
  | nil => exact nofun
  | cons c left =>
    dsimp only
    split
    · exact nofun
    · exact nofun

/-! ## The line loop with room -/

/-- A pass that meets a carriage return ends the piece. -/
theorem line_loop_return (fuel : Nat) (n : Int) (hchar : s.line_char = .ok (t, 13))
    (hnul : 0 ∉ t.left) (hroom : d + 3 ≤ buf.length) :
    ∃ buf', line_loop (fuel + 1) s buf d n =
        .ok ((after_return t.left).2, buf', d + (after_return t.left).1.length) ∧
      Stores buf d (after_return t.left).1 buf' := by
  obtain ⟨held, left⟩ := t
  obtain ⟨buf₁, hblit₁, hstores₁⟩ := blit_stores
    (by rw [List.length_singleton]; omega : d + [(13 : UInt8)].length ≤ buf.length)
  obtain ⟨buf₂, hblit₂, hstores₂⟩ := blit_stores
    (by rw [hstores₁.length, List.length_singleton]; omega : d + 1 + [(10 : UInt8)].length ≤ buf₁.length)
  have hboth : Stores buf d [13, 10] buf₂ := hstores₁.append hstores₂
  unfold line_loop
  rw [hchar, ok_bind]
  dsimp only
  rw [hblit₁, ok_bind, if_pos rfl]
  cases left with
  | nil =>
    obtain ⟨buf₃, hblit₃, hstores₃⟩ := blit_stores
      (by rw [hboth.length, List.length_singleton]; omega : d + 2 + [(0 : UInt8)].length ≤ buf₂.length)
    have hall : Stores buf d ([13, 10] ++ [0]) buf₃ := hboth.append hstores₃
    have hnext : next ⟨held, []⟩ = 0 := rfl
    rw [hnext, if_pos rfl, hblit₂, ok_bind, hblit₃, ok_bind]
    exact ⟨buf₃, rfl, hall.left (by omega)⟩
  | cons c left =>
    have hc : c ≠ 0 := fun heq => hnul (heq ▸ List.mem_cons_self)
    have hnext : next ⟨held, c :: left⟩ = c := rfl
    rw [hnext, if_neg hc]
    by_cases hfeed : c = 10
    · subst hfeed
      rw [after_return_feed, if_neg (by decide), hblit₂, ok_bind]
      exact ⟨buf₂, rfl, hboth⟩
    · rw [after_return_cons hfeed, if_pos hfeed]
      exact ⟨buf₁, rfl, hstores₁⟩

/-- A pass over any other byte stores it and goes on. -/
theorem line_loop_plain (fuel : Nat) (n : Int) {c : UInt8} (hchar : s.line_char = .ok (t, c))
    (hplain : Plain c) (hpass : 1 < n)
    (hroom : d < buf.length) :
    ∃ buf', line_loop (fuel + 1) s buf d n = line_loop fuel t buf' (d + 1) (n - 1) ∧ Stores buf d [c] buf' := by
  obtain ⟨hnul, hfeed, hreturn⟩ := hplain
  obtain ⟨buf', hblit, hstores⟩ := blit_stores
    (by rw [List.length_singleton]; omega : d + [c].length ≤ buf.length)
  refine ⟨buf', ?_, hstores⟩
  rw [line_loop, hchar, ok_bind]
  dsimp only
  rw [hblit, ok_bind, if_neg hreturn, if_neg hfeed, if_neg hnul, if_pos (by omega)]

/-- A line feed ends the piece. -/
theorem line_loop_feed (hchar : s.line_char = .ok (t, 10)) (hroom : d < buf.length) :
    ∃ buf', line_loop (fuel + 1) s buf d n = .ok (t, buf', d + 1) ∧ Stores buf d [10] buf' := by
  obtain ⟨buf', hblit, hstores⟩ := blit_stores
    (by rw [List.length_singleton]; omega : d + [(10 : UInt8)].length ≤ buf.length)
  refine ⟨buf', ?_, hstores⟩
  rw [line_loop, hchar, ok_bind]
  dsimp only
  rw [hblit, ok_bind, if_neg (by decide), if_pos rfl]

/-- A NUL ends it too and is not counted. -/
theorem line_loop_end (hchar : s.line_char = .ok (t, 0)) (hroom : d < buf.length) :
    ∃ buf', line_loop (fuel + 1) s buf d n = .ok (t, buf', d) ∧ Stores buf d [] buf' := by
  obtain ⟨buf', hblit, hstores⟩ := blit_stores
    (by rw [List.length_singleton]; omega : d + [(0 : UInt8)].length ≤ buf.length)
  have hnone : Stores buf d ([] ++ [0]) buf' := hstores
  refine ⟨buf', ?_, hnone.left (by omega)⟩
  rw [line_loop, hchar, ok_bind]
  dsimp only
  rw [hblit, ok_bind, if_neg (by decide), if_neg (by decide), if_pos rfl]

theorem line_char_cons (c : UInt8) (left : List UInt8) : line_char ⟨10, c :: left⟩ = .ok (⟨10, left⟩, c) := rfl

theorem line_char_held (hheld : s.held ≠ 10) : s.line_char = .ok (⟨13, s.left⟩, s.held) := by
  unfold line_char
  rw [if_neg hheld]

theorem line_loop_scan {left : List UInt8} (hnul : 0 ∉ left) (hpasses : left.length < n) (hfuel : left.length < fuel)
    (hroom : d + left.length + 3 ≤ buf.length) :
    ∃ buf', line_loop fuel ⟨10, left⟩ buf d n = .ok ((scan left).2, buf', d + (scan left).1.length) ∧
      Stores buf d (scan left).1 buf' := by
  induction left generalizing fuel buf d n with
  | nil =>
    obtain ⟨fuel, rfl⟩ := Nat.exists_eq_add_one_of_ne_zero (by omega : fuel ≠ 0)
    exact line_loop_end rfl (by omega)
  | cons c left ih =>
    obtain ⟨hc, hleft⟩ := List.ne_and_not_mem_of_not_mem_cons hnul
    rw [List.length_cons] at hpasses hfuel hroom
    obtain ⟨fuel, rfl⟩ := Nat.exists_eq_add_one_of_ne_zero (by omega : fuel ≠ 0)
    have hchar := line_char_cons c left
    unfold scan
    by_cases hreturn : c = 13
    · subst hreturn
      rw [if_pos rfl]
      exact line_loop_return fuel n hchar hleft (by omega)
    rw [if_neg hreturn]
    by_cases hfeed : c = 10
    · subst hfeed
      rw [if_pos rfl]
      exact line_loop_feed hchar (by omega)
    rw [if_neg hfeed]
    obtain ⟨buf₁, hpass, hstores₁⟩ :=
      line_loop_plain fuel n hchar ⟨hc.symm, hfeed, hreturn⟩ (by omega) (by omega : d < buf.length)
    obtain ⟨buf', hloop, hstores⟩ := ih hleft (by omega : (left.length : Int) < n - 1) (by omega : left.length < fuel)
      (by rw [hstores₁.length]; omega : d + 1 + left.length + 3 ≤ buf₁.length)
    refine ⟨buf', ?_, hstores₁.append hstores⟩
    rw [hpass, hloop, List.length_cons, Nat.add_assoc, Nat.add_comm 1]

/-- With enough passes and room the loop stores the piece. -/
theorem line_loop_delivery (hnul : 0 ∉ s.left) (hpasses : s.passes ≤ n) (hfuel : s.passes ≤ fuel)
    (hroom : d + s.passes + 2 ≤ buf.length) :
    ∃ buf', line_loop fuel s buf d n = .ok (s.delivery.2, buf', d + s.delivery.1.length) ∧
      Stores buf d s.delivery.1 buf' := by
  unfold passes at hpasses hfuel hroom
  unfold delivery
  by_cases hheld : s.held = 10
  · obtain ⟨held, left⟩ := s
    obtain rfl : held = 10 := hheld
    rw [if_pos rfl] at hpasses hfuel hroom ⊢
    exact line_loop_scan hnul (by dsimp only at *; omega) (by dsimp only at *; omega) (by dsimp only at *; omega)
  rw [if_neg hheld] at hpasses hfuel hroom ⊢
  obtain ⟨fuel, rfl⟩ := Nat.exists_eq_add_of_le' hfuel
  have hchar := line_char_held hheld
  by_cases hreturn : s.held = 13
  · rw [if_pos hreturn]
    rw [hreturn] at hchar
    exact line_loop_return (t := ⟨13, s.left⟩) _ _ hchar hnul (by omega)
  rw [if_neg hreturn]
  by_cases hend : s.held = 0
  · rw [hend] at hchar
    rw [if_pos hend]
    exact line_loop_end (t := ⟨13, s.left⟩) hchar (by omega)
  rw [if_neg hend]
  -- the marker that replaces the byte held back is read as a carriage return
  obtain ⟨buf₁, hpass, hstores₁⟩ := line_loop_plain (fuel + 1) n hchar ⟨hend, hheld, hreturn⟩
    (by omega) (by omega : d < buf.length)
  have hmarker : line_char ⟨13, s.left⟩ = .ok (⟨13, s.left⟩, 13) := rfl
  obtain ⟨buf', hloop, hstores⟩ := line_loop_return fuel (n - 1) hmarker hnul
    (by rw [hstores₁.length]; omega : d + 1 + 3 ≤ buf₁.length)
  refine ⟨buf', ?_, hstores₁.append hstores⟩
  rw [hpass, hloop, List.length_cons, Nat.add_assoc, Nat.add_comm 1]

/-- A call with a buffer that is long enough delivers the piece. -/
theorem line_delivery (hnul : 0 ∉ s.left) (hroom : s.passes + 2 ≤ buf.length) :
    ∃ buf', s.line buf buf.length = .ok (s.delivery.2, buf', s.delivery.1.length) ∧
      buf'.length = buf.length ∧ buf'.take s.delivery.1.length = s.delivery.1 := by
  have hpos : 0 < s.passes := by
    unfold passes
    split
    · exact Nat.succ_pos _
    · exact Nat.two_pos
  have hlast : ((buf.length : Int) - 1).toNat = buf.length - 1 := by omega
  obtain ⟨buf₁, hblit, hstores₁⟩ := blit_stores
    (by rw [List.length_singleton]; omega : buf.length - 1 + [(0 : UInt8)].length ≤ buf.length)
  obtain ⟨buf', hloop, hstores⟩ := line_loop_delivery hnul (by omega : (s.passes : Int) ≤ buf.length - 2)
    (by omega : s.passes ≤ (buf.length : Int).toNat) (by rw [hstores₁.length]; omega : 0 + s.passes + 2 ≤ buf₁.length)
  have htake := hstores.take
  rw [Nat.zero_add, List.take_zero, List.nil_append] at htake
  rw [Nat.zero_add] at hloop
  refine ⟨buf', ?_, hstores.length.trans hstores₁.length, htake⟩
  unfold line
  rw [if_neg (by omega), hlast, hblit, ok_bind, if_pos (by omega)]
  exact hloop

/-! ## Successive pieces -/

/-- Room that a source needs in a buffer, besides three bytes. -/
def size (s : Source) : Nat := if s.held = 10 then s.left.length else s.left.length + 1

/-- The pieces of `k` calls. -/
def pieces : Nat → Source → List (List UInt8)
  | 0, _ => []
  | k + 1, s => s.delivery.1 :: pieces k s.delivery.2

theorem size_after_return (left : List UInt8) :
    (after_return left).2.left <:+ left ∧ (after_return left).2.size ≤ left.length + 1 := by
  cases left with
  | nil => exact ⟨List.suffix_rfl, Nat.le_refl 1⟩
  | cons c left =>
    have hsuffix : left <:+ c :: left := List.suffix_cons c left
    by_cases hfeed : c = 10
    · subst hfeed
      refine ⟨hsuffix, ?_⟩
      show left.length ≤ left.length + 1 + 1
      omega
    · rw [after_return_cons hfeed]
      refine ⟨hsuffix, ?_⟩
      unfold size
      rw [if_neg hfeed]
      exact Nat.le_succ _

theorem size_scan (left : List UInt8) : (scan left).2.left <:+ left ∧ (scan left).2.size ≤ left.length := by
  induction left with
  | nil => exact ⟨List.suffix_rfl, Nat.le_refl 0⟩
  | cons c left ih =>
    have hsuffix : left <:+ c :: left := List.suffix_cons c left
    unfold scan
    by_cases hreturn : c = 13
    · obtain ⟨hleft, hsize⟩ := size_after_return left
      rw [if_pos hreturn]
      exact ⟨hleft.trans hsuffix, hsize⟩
    rw [if_neg hreturn]
    by_cases hfeed : c = 10
    · rw [if_pos hfeed]
      exact ⟨hsuffix, Nat.le_succ _⟩
    · rw [if_neg hfeed]
      exact ⟨ih.1.trans hsuffix, Nat.le_succ_of_le ih.2⟩

/-- What a call leaves comes from the end of what was left and needs no more room. -/
theorem size_delivery (s : Source) : s.delivery.2.left <:+ s.left ∧ s.delivery.2.size ≤ s.size := by
  obtain ⟨hleft, hsize⟩ := size_after_return s.left
  unfold delivery
  rw [size.eq_def s]
  by_cases hheld : s.held = 10
  · rw [if_pos hheld, if_pos hheld]
    exact size_scan s.left
  rw [if_neg hheld, if_neg hheld]
  by_cases hreturn : s.held = 13
  · rw [if_pos hreturn]
    exact ⟨hleft, hsize⟩
  rw [if_neg hreturn]
  by_cases hend : s.held = 0
  · rw [if_pos hend]
    exact ⟨List.suffix_rfl, Nat.le_refl _⟩
  · rw [if_neg hend]
    exact ⟨hleft, hsize⟩

theorem passes_le_size (s : Source) : s.passes ≤ s.size + 1 := by
  unfold passes size
  split
  · exact Nat.le_refl _
  · omega

end Source

/-- A read that tells the length of its buffer, with room for `room` bytes and
    three more. -/
def LineRead.Roomy (room : Nat) (read : LineRead) : Prop :=
  read.n = read.buf.length ∧ room + 3 ≤ read.buf.length

/-- The bytes that a line read delivers. -/
def Reply.piece : Reply → List UInt8
  | .line r buf => buf.take r
  | .outcome _ => []

/-- The bytes delivered are inside the buffer. -/
def Reply.Stays : Reply → Prop
  | .line r buf => r ≤ buf.length
  | .outcome _ => True

theorem length_le_of_take {piece buf : List UInt8} (htake : buf.take piece.length = piece) :
    piece.length ≤ buf.length := by
  have hlength := congrArg List.length htake
  rw [List.length_take] at hlength
  omega

theorem Source.read_delivery {s : Source} {room : Nat} (hnul : 0 ∉ s.left) (hsize : s.size ≤ room) {read : LineRead}
    (hroomy : read.Roomy room) :
    ∃ reply, s.read read = .ok (s.delivery.2, reply) ∧ reply.Stays ∧ reply.piece = s.delivery.1 := by
  obtain ⟨hn, hbuf⟩ := hroomy
  have hpasses := s.passes_le_size
  obtain ⟨buf', hline, _, htake⟩ := line_delivery hnul (by omega : s.passes + 2 ≤ read.buf.length)
  refine ⟨.line s.delivery.1.length buf', ?_, length_le_of_take htake, htake⟩
  unfold Source.read
  rw [hn, hline]
  rfl

/-- Reads with roomy buffers succeed and deliver the pieces of the source. -/
theorem Source.run_pieces {s : Source} {room : Nat} (hnul : 0 ∉ s.left) (hsize : s.size ≤ room)
    {reads : List LineRead} (hroomy : ∀ read ∈ reads, read.Roomy room) :
    ∃ s' replies, run Source.read s reads = .ok (s', replies) ∧ (∀ reply ∈ replies, reply.Stays) ∧
      replies.map Reply.piece = s.pieces reads.length := by
  induction reads generalizing s with
  | nil => exact ⟨s, [], rfl, nofun, rfl⟩
  | cons read reads ih =>
    obtain ⟨hsuffix, hless⟩ := s.size_delivery
    obtain ⟨reply, hread, hstays, hpiece⟩ := Source.read_delivery hnul hsize (hroomy read List.mem_cons_self)
    obtain ⟨s', replies, hrun, hinside, hpieces⟩ := ih (fun hmem => hnul (hsuffix.mem hmem)) (Nat.le_trans hless hsize)
      fun other hother => hroomy other (List.mem_cons_of_mem read hother)
    refine ⟨s', _, run_cons_eq_ok_iff.mpr ⟨_, reply, replies, hread, hrun, rfl⟩, ?_, ?_⟩
    · exact List.forall_mem_cons.mpr ⟨hstays, hinside⟩
    · rw [List.map_cons, hpiece, hpieces]
      rfl

/-! ## How much is delivered -/

/-- How many bytes come until the first empty piece; the flag tells that a carriage
    return comes first. -/
def tally : Bool → List UInt8 → Nat
  | false, [] => 0
  | true, [] => 2
  | false, c :: text => if c = 13 then tally true text else 1 + tally false text
  | true, c :: text =>
    if c = 10 then 2 + tally false text
    else if c = 13 then 1 + tally true text
    else 2 + tally true text

/-- How many bytes a source delivers until the first empty piece. -/
def Source.total (s : Source) : Nat :=
  if s.held = 10 then tally false s.left
  else if s.held = 13 then tally true s.left
  else if s.held = 0 then 0
  else 1 + tally true s.left

/-- Every carriage return is followed by a line feed or another carriage return. -/
def Clean (text : List UInt8) : Prop :=
  ∀ i : Nat, text[i]? = some 13 → text[i + 1]? = some 10 ∨ text[i + 1]? = some 13

theorem clean_nil : Clean [] := by
  intro i hi
  simp at hi

theorem clean_cons {c : UInt8} {text : List UInt8} :
    Clean (c :: text) ↔ (c = 13 → text.head? = some 10 ∨ text.head? = some 13) ∧ Clean text := by
  constructor
  · intro hclean
    refine ⟨fun hreturn => ?_, fun i hi => hclean (i + 1) hi⟩
    rw [List.head?_eq_getElem?]
    exact hclean 0 (by rw [hreturn, List.getElem?_cons_zero])
  · rintro ⟨hfirst, hrest⟩ i hi
    cases i with
    | zero =>
      rw [List.getElem?_cons_zero] at hi
      have hnext := hfirst (Option.some.inj hi)
      rwa [List.head?_eq_getElem?] at hnext
    | succ i => exact hrest i hi

theorem Clean.of_suffix {text rest : List UInt8} (hclean : Clean text) (hsuffix : rest <:+ text) : Clean rest := by
  obtain ⟨before, rfl⟩ := hsuffix
  induction before with
  | nil => exact hclean
  | cons c before ih => exact ih (clean_cons.mp hclean).2

/-- As many bytes come as there are exactly if every carriage return is followed
    by a line feed or another carriage return; otherwise more come. -/
theorem tally_spec (text : List UInt8) :
    (text.length ≤ tally false text ∧ (tally false text = text.length ↔ Clean text)) ∧
      (text.length + 1 ≤ tally true text ∧ (tally true text = text.length + 1 ↔ Clean (13 :: text))) := by
  induction text with
  | nil =>
    refine ⟨⟨Nat.le_refl 0, fun _ => clean_nil, fun _ => rfl⟩, by decide, ?_⟩
    constructor
    · intro heq
      cases heq
    · intro hclean
      rcases (clean_cons.mp hclean).1 rfl with hnext | hnext
      · cases hnext
      · cases hnext
  | cons c text ih =>
    obtain ⟨⟨hfalse, hfalse_iff⟩, htrue, htrue_iff⟩ := ih
    have hplain : c ≠ 13 → (Clean (c :: text) ↔ Clean text) := by
      intro hc
      rw [clean_cons]
      exact ⟨And.right, fun hclean => ⟨fun heq => absurd heq hc, hclean⟩⟩
    rw [List.length_cons]
    constructor
    · unfold tally
      by_cases hreturn : c = 13
      · subst hreturn
        rw [if_pos rfl]
        exact ⟨htrue, htrue_iff⟩
      · rw [if_neg hreturn, hplain hreturn, ← hfalse_iff]
        omega
    · unfold tally
      rw [clean_cons, List.head?_cons]
      by_cases hfeed : c = 10
      · subst hfeed
        rw [if_pos rfl, hplain (by decide), ← hfalse_iff]
        simp only [true_or, implies_true, true_and]
        omega
      rw [if_neg hfeed]
      by_cases hreturn : c = 13
      · subst hreturn
        rw [if_pos rfl, ← htrue_iff]
        simp only [or_true, implies_true, true_and]
        omega
      · rw [if_neg hreturn]
        simp only [Option.some.injEq, hfeed, hreturn, or_self, forall_const, false_and, iff_false]
        omega

theorem tally_lt (text : List UInt8) : tally false text < tally true text := by
  induction text with
  | nil => decide
  | cons c text ih =>
    have htrue := (tally_spec text).2.1
    unfold tally
    by_cases hfeed : c = 10
    · subst hfeed
      rw [if_neg (by decide), if_pos rfl]
      omega
    rw [if_neg hfeed]
    by_cases hreturn : c = 13
    · rw [if_pos hreturn, if_pos hreturn]
      omega
    · rw [if_neg hreturn, if_neg hreturn]
      omega

namespace Source

theorem total_after_return {left : List UInt8} (hnul : 0 ∉ left) :
    tally true left = (after_return left).1.length + (after_return left).2.total := by
  cases left with
  | nil => rfl
  | cons c left =>
    obtain ⟨hc, _⟩ := List.ne_and_not_mem_of_not_mem_cons hnul
    unfold tally
    by_cases hfeed : c = 10
    · subst hfeed
      rfl
    rw [after_return_cons hfeed, if_neg hfeed]
    unfold total
    by_cases hreturn : c = 13
    · rw [if_pos hreturn, if_neg hfeed, if_pos hreturn]
      rfl
    · rw [if_neg hreturn, if_neg hfeed, if_neg hreturn, if_neg hc.symm, List.length_singleton]
      dsimp only
      omega

theorem total_scan {left : List UInt8} (hnul : 0 ∉ left) :
    tally false left = (scan left).1.length + (scan left).2.total ∧ ((scan left).1 = [] → tally false left = 0) := by
  induction left with
  | nil => exact ⟨rfl, fun _ => rfl⟩
  | cons c left ih =>
    obtain ⟨hc, hleft⟩ := List.ne_and_not_mem_of_not_mem_cons hnul
    unfold tally scan
    by_cases hreturn : c = 13
    · rw [if_pos hreturn, if_pos hreturn]
      exact ⟨total_after_return hleft, fun hempty => absurd hempty (after_return_ne left)⟩
    rw [if_neg hreturn, if_neg hreturn]
    by_cases hfeed : c = 10
    · subst hfeed
      exact ⟨rfl, nofun⟩
    · rw [if_neg hfeed, List.length_cons, (ih hleft).1]
      exact ⟨by dsimp only; omega, nofun⟩

/-- A piece takes its bytes off the total; an empty piece comes when nothing is
    left of it. -/
theorem total_delivery {s : Source} (hnul : 0 ∉ s.left) :
    (s.delivery.1 ≠ [] → s.total = s.delivery.1.length + s.delivery.2.total) ∧
      (s.delivery.1 = [] → s.total = 0) := by
  obtain ⟨hscan, hempty⟩ := total_scan hnul
  have hreturned := total_after_return hnul
  unfold delivery
  rw [total.eq_def s]
  by_cases hheld : s.held = 10
  · rw [if_pos hheld, if_pos hheld]
    exact ⟨fun _ => hscan, hempty⟩
  rw [if_neg hheld, if_neg hheld]
  by_cases hreturn : s.held = 13
  · rw [if_pos hreturn, if_pos hreturn]
    exact ⟨fun _ => hreturned, fun hempty => absurd hempty (after_return_ne s.left)⟩
  rw [if_neg hreturn, if_neg hreturn]
  by_cases hend : s.held = 0
  · rw [if_pos hend, if_pos hend]
    exact ⟨fun hnone => absurd rfl hnone, fun _ => rfl⟩
  · rw [if_neg hend, if_neg hend, List.length_cons]
    refine ⟨fun _ => ?_, nofun⟩
    dsimp only
    omega

/-- The pieces before the first empty one are as long as the total. -/
theorem length_lead {s : Source} (hnul : 0 ∉ s.left) {k : Nat} {lead rest : List (List UInt8)}
    (hpieces : s.pieces k = lead ++ [] :: rest) (hlead : [] ∉ lead) : lead.flatten.length = s.total := by
  induction lead generalizing s k with
  | nil =>
    cases k with
    | zero => cases hpieces
    | succ k => exact ((total_delivery hnul).2 (List.cons.inj hpieces).1).symm
  | cons piece lead ih =>
    cases k with
    | zero => cases hpieces
    | succ k =>
      obtain ⟨hne, hlead⟩ := List.ne_and_not_mem_of_not_mem_cons hlead
      obtain ⟨hpiece, hrest⟩ := List.cons.inj hpieces
      have hsuffix := s.size_delivery.1
      have htotal := (total_delivery hnul).1 (by rw [hpiece]; exact hne.symm)
      rw [List.flatten_cons, List.length_append, ih (fun hmem => hnul (hsuffix.mem hmem)) hrest hlead, htotal, hpiece]

/-- With more calls than bytes one of the pieces is empty. -/
theorem exists_lead {s : Source} (hnul : 0 ∉ s.left) {k : Nat} (hcalls : s.total < k) :
    ∃ lead rest, s.pieces k = lead ++ [] :: rest ∧ [] ∉ lead := by
  induction k generalizing s with
  | zero => omega
  | succ k ih =>
    by_cases hempty : s.delivery.1 = []
    · exact ⟨[], s.delivery.2.pieces k, by rw [pieces, hempty, List.nil_append], List.not_mem_nil⟩
    · have hsuffix := s.size_delivery.1
      have htotal := (total_delivery hnul).1 hempty
      have hpos := List.length_pos_iff.mpr hempty
      obtain ⟨lead, rest, hpieces, hlead⟩ :=
        ih (fun hmem => hnul (hsuffix.mem hmem)) (by omega : s.delivery.2.total < k)
      refine ⟨s.delivery.1 :: lead, rest, by rw [pieces, hpieces, List.cons_append], ?_⟩
      rw [List.mem_cons]
      exact not_or.mpr ⟨fun heq => hempty heq.symm, hlead⟩

/-- Sources with the same pieces deliver the same number of bytes. -/
theorem total_eq_of_pieces {s t : Source} (hs : 0 ∉ s.left) (ht : 0 ∉ t.left)
    (hpieces : ∀ k, s.pieces k = t.pieces k) : s.total = t.total := by
  obtain ⟨lead, rest, hlead, hnonempty⟩ := exists_lead hs (Nat.lt_succ_self s.total)
  rw [← length_lead hs hlead hnonempty, ← length_lead ht ((hpieces _).symm.trans hlead) hnonempty]

end Source

/-! ## Delivery of a whole text -/

/-- The pieces before the first empty one make up the text, and all later ones are
    empty. There is an empty one if there are more pieces than bytes. -/
def Lossless (text : List UInt8) (pieces : List (List UInt8)) : Prop :=
  ∃ lead k, pieces = lead ++ List.replicate k [] ∧ [] ∉ lead ∧ (0 < k → lead.flatten = text) ∧
    (text.length < pieces.length → 0 < k)

theorem lossless_nil (k : Nat) : Lossless [] (List.replicate k []) := by
  refine ⟨[], k, rfl, List.not_mem_nil, fun _ => rfl, fun hlen => ?_⟩
  rwa [List.length_replicate] at hlen

theorem Lossless.cons {text piece : List UInt8} {pieces : List (List UInt8)} (hlossless : Lossless text pieces)
    (hpiece : piece ≠ []) : Lossless (piece ++ text) (piece :: pieces) := by
  obtain ⟨lead, k, rfl, hlead, hwhole, hend⟩ := hlossless
  refine ⟨piece :: lead, k, rfl, ?_, fun hk => ?_, fun hlen => hend ?_⟩
  · rw [List.mem_cons]
    exact not_or.mpr ⟨hpiece.symm, hlead⟩
  · rw [List.flatten_cons, hwhole hk]
  · have hpos := List.length_pos_iff.mpr hpiece
    rw [List.length_append, List.length_cons] at hlen
    omega

namespace Source

/-- What a source should deliver: what it holds back and what is left. -/
def whole (s : Source) : List UInt8 := if s.held = 10 then s.left else s.held :: s.left

theorem whole_after_return {left : List UInt8} (hclean : Clean (13 :: left)) :
    13 :: left = (after_return left).1 ++ (after_return left).2.whole ∧
      ((after_return left).2.held = 10 ∨ (after_return left).2.held = 13) := by
  have hnext := (clean_cons.mp hclean).1 rfl
  cases left with
  | nil =>
    rcases hnext with hnext | hnext
    · cases hnext
    · cases hnext
  | cons c left =>
    rcases hnext with hnext | hnext
    · obtain rfl := Option.some.inj hnext
      exact ⟨rfl, Or.inl rfl⟩
    · obtain rfl := Option.some.inj hnext
      exact ⟨rfl, Or.inr rfl⟩

theorem whole_scan {left : List UInt8} (hclean : Clean left) :
    left = (scan left).1 ++ (scan left).2.whole ∧ ((scan left).2.held = 10 ∨ (scan left).2.held = 13) ∧
      ((scan left).1 = [] → left = []) := by
  induction left with
  | nil => exact ⟨rfl, Or.inl rfl, fun _ => rfl⟩
  | cons c left ih =>
    unfold scan
    by_cases hreturn : c = 13
    · subst hreturn
      obtain ⟨hwhole, hheld⟩ := whole_after_return hclean
      rw [if_pos rfl]
      exact ⟨hwhole, hheld, fun hempty => absurd hempty (after_return_ne left)⟩
    rw [if_neg hreturn]
    by_cases hfeed : c = 10
    · subst hfeed
      exact ⟨rfl, Or.inl rfl, nofun⟩
    · obtain ⟨hwhole, hheld, _⟩ := ih (clean_cons.mp hclean).2
      rw [if_neg hfeed]
      refine ⟨?_, hheld, nofun⟩
      rw [List.cons_append, ← hwhole]

theorem pieces_end (k : Nat) : pieces k ⟨10, []⟩ = List.replicate k [] := by
  induction k with
  | zero => rfl
  | succ k ih =>
    rw [List.replicate_succ, ← ih]
    rfl

theorem length_pieces (k : Nat) (s : Source) : (s.pieces k).length = k := by
  induction k generalizing s with
  | zero => rfl
  | succ k ih => rw [pieces, List.length_cons, ih]

/-- A text whose carriage returns are all followed by line feeds or carriage
    returns is delivered. -/
theorem lossless_pieces {s : Source} (hheld : s.held = 10 ∨ s.held = 13) (hclean : Clean s.whole) (k : Nat) :
    Lossless s.whole (s.pieces k) := by
  induction k generalizing s with
  | zero => exact ⟨[], 0, rfl, List.not_mem_nil, by simp, by simp [pieces]⟩
  | succ k ih =>
    have hstep : s.whole = s.delivery.1 ++ s.delivery.2.whole ∧ (s.delivery.2.held = 10 ∨ s.delivery.2.held = 13) ∧
        (s.delivery.1 = [] → s = ⟨10, []⟩) := by
      obtain ⟨held, left⟩ := s
      rcases hheld with heq | heq
      · obtain rfl : held = 10 := heq
        obtain ⟨hwhole, hheld', hempty⟩ := whole_scan hclean
        exact ⟨hwhole, hheld', fun hnone => congrArg (Source.mk 10) (hempty hnone)⟩
      · obtain rfl : held = 13 := heq
        obtain ⟨hwhole, hheld'⟩ := whole_after_return hclean
        exact ⟨hwhole, hheld', fun hnone => absurd hnone (after_return_ne left)⟩
    obtain ⟨hwhole, hheld', hempty⟩ := hstep
    by_cases hnone : s.delivery.1 = []
    · rw [hempty hnone, pieces_end]
      exact lossless_nil (k + 1)
    · rw [hwhole] at hclean ⊢
      exact (ih hheld' (hclean.of_suffix (List.suffix_append _ _))).cons hnone

/-- More calls than bytes deliver the text only if all its carriage returns are
    followed by line feeds or carriage returns. -/
theorem clean_of_lossless {text : List UInt8} (hnul : 0 ∉ text)
    (hlossless : Lossless text (pieces (text.length + 1) ⟨10, text⟩)) : Clean text := by
  obtain ⟨lead, k, hpieces, hlead, hwhole, hend⟩ := hlossless
  have hk := hend (by rw [length_pieces]; exact Nat.lt_succ_self _)
  obtain ⟨k, rfl⟩ := Nat.exists_eq_add_one_of_ne_zero (Nat.pos_iff_ne_zero.mp hk)
  have htotal := length_lead (s := ⟨10, text⟩) hnul hpieces hlead
  rw [hwhole hk] at htotal
  exact (tally_spec text).1.2.mp htotal.symm

end Source

/-! ## Reading a whole text -/

/-- A buffer of every length, and a read with it. -/
theorem exists_roomy (room k : Nat) : ∃ reads : List LineRead, reads.length = k ∧ ∀ read ∈ reads, read.Roomy room := by
  refine ⟨List.replicate k ⟨List.replicate (room + 3) 0, (room + 3 : Nat), fun _ => 0⟩, List.length_replicate, ?_⟩
  intro read hread
  obtain rfl := List.eq_of_mem_replicate hread
  exact ⟨by rw [List.length_replicate], Nat.le_of_eq List.length_replicate.symm⟩

/-- What reads with roomy buffers deliver of a handle. -/
theorem Stands.run_pieces {h : MFile} {s : Source} (hstands : Stands h s) (alloc : Alloc) {room : Nat}
    (hnul : 0 ∉ s.left) (hsize : s.size ≤ room) {reads : List LineRead} (hroomy : ∀ read ∈ reads, read.Roomy room) :
    ∃ h' replies, machine.run (mfile.perform alloc) h (reads.map LineRead.call) = .ok (h', replies) ∧
      (∀ reply ∈ replies, reply.Stays) ∧ replies.map Reply.piece = s.pieces reads.length := by
  obtain ⟨s', replies, hsource, hpieces⟩ := Source.run_pieces hnul hsize hroomy
  obtain ⟨h', hreads, _⟩ := (hstands.run alloc reads).symm.of_ok hsource
  exact ⟨h', replies, hreads, hpieces⟩

/-- Line reads with buffers that have room for the whole text and three bytes more
    deliver it exactly when each of its carriage returns is followed by a line feed
    or another carriage return. -/
theorem mread_line_lossless_iff {alloc : Alloc} {size : Nat} {af fe : Bool} {h h' : MFile}
    (hopen : mopen alloc size af fe = .ok (some h)) {calls : List Call} {replies : List Reply}
    (hfills : ∀ call ∈ calls, call.Fills) (hcovered : ∀ call ∈ calls, call.Covered)
    (hnonempty : ∀ call ∈ calls, call.Nonempty) (hrun : run (perform alloc) h calls = .ok (h', replies))
    (hnul : 0 ∉ content h') :
    (∀ reads : List LineRead, (∀ read ∈ reads, read.Roomy (content h').length) →
      ∃ h'' replies', run (perform alloc) h' (reads.map LineRead.call) = .ok (h'', replies') ∧
        (∀ reply ∈ replies', reply.Stays) ∧ Lossless (content h') (replies'.map Reply.piece)) ↔
      Clean (content h') := by
  obtain ⟨_, hsize, hopen⟩ := open_sized hopen
  have hstands := (fresh_along_run hsize hopen hfills hcovered hnonempty hrun).stands
  have hpieces := fun (reads : List LineRead) (hroomy : ∀ read ∈ reads, read.Roomy (content h').length) =>
    hstands.run_pieces alloc hnul (Nat.le_refl _) hroomy
  constructor
  · intro hall
    obtain ⟨reads, hlength, hroomy⟩ := exists_roomy (content h').length ((content h').length + 1)
    obtain ⟨h₁, replies₁, hrun₁, _, hlossless⟩ := hall reads hroomy
    obtain ⟨h₂, replies₂, hrun₂, _, heq⟩ := hpieces reads hroomy
    obtain ⟨_, rfl⟩ := ok_inj hrun₁ hrun₂
    rw [heq, hlength] at hlossless
    exact Source.clean_of_lossless hnul hlossless
  · intro hclean reads hroomy
    obtain ⟨h'', replies', hreads, hstays, heq⟩ := hpieces reads hroomy
    refine ⟨h'', replies', hreads, hstays, ?_⟩
    rw [heq]
    exact Source.lossless_pieces (s := ⟨10, content h'⟩) (Or.inl rfl) hclean reads.length

/-- Two carriage returns before a line feed, each in a block of its own. -/
theorem mread_line_lossless_blocks :
    ∃ h' replies, run (perform fun _ => some fun _ => 0) (new_handle 1 true)
        [.op (.mwrite [97, 13, 13, 10] 4)] = .ok (h', replies) ∧ content h' = [97, 13, 13, 10] ∧
      ∀ reads : List LineRead, (∀ read ∈ reads, read.Roomy (content h').length) →
        ∃ h'' replies', run (perform fun _ => some fun _ => 0) h' (reads.map LineRead.call) = .ok (h'', replies') ∧
          (∀ reply ∈ replies', reply.Stays) ∧ Lossless (content h') (replies'.map Reply.piece) := by
  have hopen : mopen (fun _ => some fun _ => 0) 1 true true = .ok (some (new_handle 1 true)) := rfl
  obtain ⟨h', replies, hrun, hcontent⟩ := run_of_view content
    (by decide +kernel : (run (perform fun _ => some fun _ => 0) (new_handle 1 true)
      [.op (.mwrite [97, 13, 13, 10] 4)]).toOption.map (fun r => content r.1) = some [97, 13, 13, 10])
  refine ⟨h', replies, hrun, hcontent, (mread_line_lossless_iff hopen (by simp [Call.Fills])
    (by decide : ∀ call ∈ _, Call.Covered call) (by decide : ∀ call ∈ _, Call.Nonempty call) hrun ?_).mpr ?_⟩
  · rw [hcontent]
    decide
  · rw [hcontent]
    simp [clean_cons, clean_nil]

/-- The byte after a bare carriage return comes with another one behind it, then a
    line feed that was never written, and reading does not end. -/
theorem mread_line_invents_bytes :
    ∃ h' replies h'' replies', run (perform fun _ => some fun _ => 0) (new_handle 8 true)
        [.op (.mwrite [97, 13, 98] 3)] = .ok (h', replies) ∧ content h' = [97, 13, 98] ∧
      run (perform fun _ => some fun _ => 0) h'
        (List.replicate 4 (LineRead.call ⟨[1, 1, 1, 1, 1, 1], 6, fun _ => 0⟩)) = .ok (h'', replies') ∧
      replies'.map Reply.piece = [[97, 13], [98, 13, 10], [], [13, 10]] ∧
      ¬Lossless (content h') (replies'.map Reply.piece) := by
  obtain ⟨h', replies, hrun, hview⟩ := run_of_view
    (fun h => (content h, (run (perform fun _ => some fun _ => 0) h
      (List.replicate 4 (LineRead.call ⟨[1, 1, 1, 1, 1, 1], 6, fun _ => 0⟩))).toOption.map
        fun r => r.2.map Reply.piece))
    (by decide +kernel : (run (perform fun _ => some fun _ => 0) (new_handle 8 true)
      [.op (.mwrite [97, 13, 98] 3)]).toOption.map (fun r => (content r.1,
        (run (perform fun _ => some fun _ => 0) r.1
          (List.replicate 4 (LineRead.call ⟨[1, 1, 1, 1, 1, 1], 6, fun _ => 0⟩))).toOption.map
            fun r => r.2.map Reply.piece)) =
      some ([97, 13, 98], some [[97, 13], [98, 13, 10], [], [13, 10]]))
  obtain ⟨hcontent, hpieces⟩ := Prod.mk.inj hview
  obtain ⟨⟨h'', replies'⟩, hreads, heq⟩ := eq_ok_of_view
    (fun r : MFile × List Reply => r.2.map Reply.piece) hpieces
  refine ⟨h', replies, h'', replies', hrun, hcontent, hreads, heq, ?_⟩
  rw [hcontent]
  rintro ⟨lead, k, hsplit, _, _, hend⟩
  rw [heq] at hsplit hend
  have hk := hend (by decide)
  obtain ⟨k, rfl⟩ := Nat.exists_eq_add_one_of_ne_zero (Nat.pos_iff_ne_zero.mp hk)
  rw [List.replicate_succ', ← List.append_assoc] at hsplit
  have hlast := congrArg List.getLast? hsplit
  rw [List.getLast?_concat] at hlast
  cases hlast

end code_tools.mfile

import CodeTools.Lib.Machine
import CodeTools.Stralloc.Growth

/-!
# Content and capacity

While requests stay far below 2^32, a string does what its operations say
whatever the allocator does.
-/

namespace code_tools.stralloc

open cmem machine

/-! ## What a string represents -/

/-- The bytes of a string, and whether a copy or an append has succeeded since
    it was last empty of memory. -/
structure Text where
  bytes : List UInt8
  terminated : Bool
deriving DecidableEq, Repr

def Text.empty : Text := { bytes := [], terminated := false }

/-- The bytes that a call copies or appends. -/
def Op.source : Op → List UInt8
  | .ready _ => []
  | .readyplus _ => []
  | .copyb s n => s.take n
  | .copys s => s.takeWhile (· ≠ 0)
  | .copy sa_src => sa_src.memory.take sa_src.len
  | .catb s n => s.take n
  | .cats s => s.takeWhile (· ≠ 0)
  | .cat sa_src => sa_src.memory.take sa_src.len
  | .free => []

/-- What a call makes of the text, given whether it succeeded. -/
def Text.after (t : Text) (op : Op) (success : Bool) : Text :=
  if success then
    match op with
    | .ready _ => t
    | .readyplus _ => t
    | .copyb _ _ => { bytes := op.source, terminated := true }
    | .copys _ => { bytes := op.source, terminated := true }
    | .copy _ => { bytes := op.source, terminated := true }
    | .catb _ _ => { bytes := t.bytes ++ op.source, terminated := true }
    | .cats _ => { bytes := t.bytes ++ op.source, terminated := true }
    | .cat _ => { bytes := t.bytes ++ op.source, terminated := true }
    | .free => Text.empty
  else t

/-- The string holds the text; `a` never exceeds the buffer, and a terminated
    text has its terminator inside `a`. -/
structure Represents (x : Stralloc) (t : Text) : Prop where
  length : x.len = t.bytes.length
  null : x.s = none → t = Text.empty
  fresh : t.terminated = false → t.bytes = []
  capacity : ∀ block, x.s = some block → x.a ≤ block.bytes.length
  word : x.s.isSome = true → x.a < 2 ^ 32
  bytes : ∀ block, x.s = some block → block.bytes.take x.len = t.bytes
  terminator : ∀ block, x.s = some block → t.terminated = true →
    x.len < x.a ∧ block.bytes[x.len]? = some 0

theorem represents_zero : Represents Stralloc.zero Text.empty := by
  refine ⟨rfl, fun _ => rfl, fun _ => rfl, ?_, ?_, ?_, ?_⟩ <;> simp [Stralloc.zero]

theorem Represents.len_le {x : Stralloc} {t : Text} (h : Represents x t) {block : Block}
    (hs : x.s = some block) : x.len ≤ x.a := by
  cases ht : t.terminated with
  | false =>
    have hlen := h.length
    rw [h.fresh ht, List.length_nil] at hlen
    omega
  | true => exact Nat.le_of_lt (h.terminator block hs ht).1

/-- A string whose bytes were moved to a block of at least the old capacity. -/
theorem Represents.moved {x x' : Stralloc} {t : Text} (h : Represents x t) {block block' : Block}
    (hs : x.s = some block) (hs' : x'.s = some block') (hlen : x'.len = x.len) (hle : x.a ≤ x'.a)
    (hcap : x'.a ≤ block'.bytes.length) (hword : x'.a < 2 ^ 32)
    (htake : block'.bytes.take x.a = block.bytes.take x.a) : Represents x' t := by
  have hold : ∀ k, k ≤ x.a → block'.bytes.take k = block.bytes.take k := by
    intro k hk
    have hcut := congrArg (List.take k) htake
    rwa [List.take_take, List.take_take, Nat.min_eq_left hk] at hcut
  have hblock : ∀ b, x'.s = some b → block' = b := fun b hb => Option.some.inj (hs'.symm.trans hb)
  refine ⟨?_, ?_, h.fresh, ?_, fun _ => hword, ?_, ?_⟩
  · rw [hlen, h.length]
  · intro hnone
    rw [hs'] at hnone
    cases hnone
  · intro b hb
    obtain rfl := hblock b hb
    exact hcap
  · intro b hb
    obtain rfl := hblock b hb
    rw [hlen, hold _ (h.len_le hs), h.bytes block hs]
  · intro b hb ht
    obtain rfl := hblock b hb
    obtain ⟨hlt, hzero⟩ := h.terminator block hs ht
    refine ⟨by omega, ?_⟩
    rw [hlen, ← List.getElem?_take_of_lt (Nat.lt_succ_self x.len), hold _ hlt,
      List.getElem?_take_of_lt (Nat.lt_succ_self x.len)]
    exact hzero

/-- A string whose block was overwritten with some bytes and their terminator. -/
theorem Represents.written {x : Stralloc} {t : Text} (h : Represents x t) {block block' : Block}
    (hs : x.s = some block) (hsize : block'.bytes.length = block.bytes.length) {bytes : List UInt8}
    {n : Nat} (hn : bytes.length = n) (hroom : n < x.a) (htake : block'.bytes.take n = bytes)
    (hzero : block'.bytes[n]? = some 0) :
    Represents { x with s := some block', len := n } { bytes := bytes, terminated := true } := by
  have hblock : ∀ b, some block' = some b → block' = b := fun b hb => Option.some.inj hb
  refine ⟨hn.symm, by simp, by simp, ?_, fun _ => h.word (by rw [hs]; rfl), ?_, ?_⟩
  · intro b hb
    obtain rfl := hblock b hb
    rw [hsize]
    exact h.capacity block hs
  · intro b hb
    obtain rfl := hblock b hb
    exact htake
  · intro b hb _
    obtain rfl := hblock b hb
    exact ⟨hroom, hzero⟩

/-! ## Making room -/

/-- A first buffer, or none, leaves the string empty. -/
theorem Represents.ready_first (pool : Pool) {x : Stralloc} {t : Text} (h : Represents x t)
    (hs : x.s = none) (n : Nat) {first : Nat} (hfirst : first ≤ 2 ^ 30) (alloc : Allocation) :
    ∃ pool' x' success, ready_with pool x n first alloc = .ok (pool', x', success) ∧
      Represents x' t ∧ x'.len = x.len ∧ (success = true →
        first ≤ x'.a ∧ ∃ block, x'.s = some block) := by
  obtain ⟨pool', y, hready, hlen, _⟩ := ready_with_none pool first hs n alloc
  have hempty := h.null hs
  have hzero : x.len = 0 := by
    rw [h.length, hempty]
    exact List.length_nil
  have hlt := rounded_of_lt (by omega : first < 2 ^ 32 - 16)
  refine ⟨pool', _, _, hready, ?_, hzero.symm,
    fun hsuccess => ⟨Nat.le_refl _, Option.isSome_iff_exists.mp hsuccess⟩⟩
  rw [hempty]
  refine ⟨rfl, fun _ => rfl, fun _ => rfl, fun block hblock => ?_, fun _ => ?_, fun _ _ => rfl, ?_⟩
  · rw [hlen block hblock]
    exact Nat.le_of_lt hlt
  · dsimp only
    omega
  · simp [Text.empty]

/-- A buffer that is large enough stays, one that is not is replaced or kept. -/
theorem Represents.ready_more (pool : Pool) {x : Stralloc} {t : Text} (h : Represents x t)
    {block : Block} (hs : x.s = some block) {n : Nat} (hn : n ≤ 2 ^ 30) (first : Nat) (alloc : Allocation) :
    ∃ pool' x' success, ready_with pool x n first alloc = .ok (pool', x', success) ∧
      Represents x' t ∧ x'.len = x.len ∧ (success = true →
        n ≤ x'.a ∧ ∃ block, x'.s = some block) := by
  have hcap := h.capacity block hs
  by_cases hroom : n ≤ x.a
  · exact ⟨pool, x, true, ready_with_room pool first hs hroom alloc, h, rfl,
      fun _ => ⟨hroom, block, hs⟩⟩
  · have henlarged : enlarged n = 30 + n + n / 8 := by
      rw [enlarged_eq]
      omega
    have hlt := rounded_of_lt (by omega : enlarged n < 2 ^ 32 - 16)
    obtain ⟨pool', x', success, hready, _, hsame, hnew⟩ :=
      ready_with_grow pool first hs (by omega : x.a < n) hcap (by omega) alloc
    have hlen := len_of_ready_with hs hready
    cases success with
    | false => exact ⟨pool', x', false, hready, (hsame rfl).symm ▸ h, hlen, by simp⟩
    | true =>
      obtain ⟨hnewa, _, block', hblock', hsize, htake⟩ := hnew rfl
      have hmoved := h.moved hs hblock' hlen (by omega) (by omega) (by omega) htake
      exact ⟨pool', x', true, hready, hmoved, hlen, fun _ => ⟨by omega, block', hblock'⟩⟩

/-- Making room for a request far below 2^32 succeeds or fails without touching
    the text, and success provides the room. -/
theorem Represents.ready_with (pool : Pool) {x : Stralloc} {t : Text} (h : Represents x t) {n first : Nat}
    (hn : n ≤ 2 ^ 30) (hfirst : first ≤ 2 ^ 30) (alloc : Allocation) :
    ∃ pool' x' success, ready_with pool x n first alloc = .ok (pool', x', success) ∧
      Represents x' t ∧ x'.len = x.len ∧ (success = true →
        (if x.s.isNone then first else n) ≤ x'.a ∧ ∃ block, x'.s = some block) := by
  cases hs : x.s with
  | none => exact h.ready_first pool hs n hfirst alloc
  | some block => exact h.ready_more pool hs hn first alloc

/-! ## Copying and appending -/

/-- A copy makes the text the source bytes, or fails and keeps it. -/
theorem Represents.copyb (pool : Pool) {x : Stralloc} {t : Text} (h : Represents x t) {s : List UInt8}
    {n : Nat} (hn : n < 2 ^ 30) (hsrc : n ≤ s.length) (alloc : Allocation) :
    ∃ pool' x' success, stralloc_copyb pool x s n alloc = .ok (pool', x', success) ∧
      Represents x' (if success then { bytes := s.take n, terminated := true } else t) := by
  have hword : (n + 1) % 2 ^ 32 = n + 1 := Nat.mod_eq_of_lt (by omega)
  obtain ⟨pool', x', success, hready, h', _, hroom⟩ :=
    h.ready_with pool (by omega : n + 1 ≤ 2 ^ 30) (by omega : n + 1 ≤ 2 ^ 30) alloc
  have hcall : stralloc_ready pool x ((n + 1) % 2 ^ 32) alloc = .ok (pool', x', success) := by
    rw [hword]
    exact hready
  cases success with
  | false => exact ⟨pool', x', false, copyb_of_not_ready hcall, h'⟩
  | true =>
    obtain ⟨hcovers, block, hblock⟩ := hroom rfl
    have hroom' : n + 1 ≤ x'.a := by simpa using hcovers
    have hcap := h'.capacity block hblock
    obtain ⟨block', hcopy, hsize, htake, hzero⟩ := copyb_of_ready hcall hblock (by omega) hsrc
    have hbytes : (s.take n).length = n := by
      rw [List.length_take]
      omega
    exact ⟨pool', _, true, hcopy, h'.written hblock hsize hbytes (by omega) htake hzero⟩

/-- An append makes the text the old one and the source bytes, or fails and
    keeps it. -/
theorem Represents.catb (pool : Pool) {x : Stralloc} {t : Text} (h : Represents x t) {s : List UInt8}
    {n : Nat} (hn : x.len + n < 2 ^ 30) (hsrc : n ≤ s.length) (alloc : Allocation) :
    ∃ pool' x' success, stralloc_catb pool x s n alloc = .ok (pool', x', success) ∧
      Represents x' (if success then { bytes := t.bytes ++ s.take n, terminated := true } else t) := by
  cases hs : x.s with
  | none =>
    have hempty := h.null hs
    have hcat : stralloc_catb pool x s n alloc = stralloc_copyb pool x s n alloc := by
      unfold stralloc_catb
      rw [hs]
      rfl
    rw [hcat, hempty]
    rw [hempty] at h
    exact h.copyb pool (by omega) hsrc alloc
  | some block₀ =>
    have hnone : x.s.isNone = false := by rw [hs]; rfl
    have hword : ((n + 1) % 2 ^ 32 + x.len) % 2 ^ 32 = x.len + n + 1 := by omega
    obtain ⟨pool', x', success, hready, h', hlen, hroom⟩ :=
      h.ready_more pool hs (by omega : x.len + n + 1 ≤ 2 ^ 30) ((n + 1) % 2 ^ 32) alloc
    have hcall : stralloc_readyplus pool x ((n + 1) % 2 ^ 32) alloc = .ok (pool', x', success) := by
      unfold stralloc_readyplus
      rw [hword]
      exact hready
    cases success with
    | false => exact ⟨pool', x', false, catb_of_not_ready hnone hcall, h'⟩
    | true =>
      obtain ⟨hcovers, block, hblock⟩ := hroom rfl
      have hcap := h'.capacity block hblock
      obtain ⟨block', hcat, hsize, htake, hzero⟩ :=
        catb_of_ready hnone hcall hblock (by omega) (by omega) hsrc
      have hbytes : (t.bytes ++ s.take n).length = x'.len + n := by
        rw [List.length_append, ← h'.length, List.length_take]
        omega
      rw [h'.bytes block hblock] at htake
      exact ⟨pool', _, true, hcat, h'.written hblock hsize hbytes (by omega) htake hzero⟩

/-! ## Runs -/

/-- One call with what the allocator will do. -/
def exec (state : Pool × Stralloc) (input : Op × Allocation) : Except Fault ((Pool × Stralloc) × Bool) := do
  let (pool, x, success) ← call state.1 state.2 input.2 input.1
  .ok ((pool, x), success)

/-- The requested total stays below 2^30 and the source covers it: lengths are
    covered by the caller's memory, C strings are terminated and a source
    string holds the bytes it claims. -/
def Allowed (state : Pool × Stralloc) (input : Op × Allocation) : Prop :=
  match input.1 with
  | .ready n => n < 2 ^ 30
  | .readyplus n => state.2.len + n < 2 ^ 30
  | .copyb s n => n < 2 ^ 30 ∧ n ≤ s.length
  | .copys s => strlen s < 2 ^ 30 ∧ 0 ∈ s
  | .copy sa_src => sa_src.len < 2 ^ 30 ∧ sa_src.len ≤ sa_src.memory.length
  | .catb s n => state.2.len + n < 2 ^ 30 ∧ n ≤ s.length
  | .cats s => state.2.len + strlen s < 2 ^ 30 ∧ 0 ∈ s
  | .cat sa_src => state.2.len + sa_src.len < 2 ^ 30 ∧ sa_src.len ≤ sa_src.memory.length
  | .free => True

instance (state : Pool × Stralloc) : ∀ input, Decidable (Allowed state input)
  | (.ready n, _) => inferInstanceAs (Decidable (n < 2 ^ 30))
  | (.readyplus n, _) => inferInstanceAs (Decidable (state.2.len + n < 2 ^ 30))
  | (.copyb s n, _) => inferInstanceAs (Decidable (n < 2 ^ 30 ∧ n ≤ s.length))
  | (.copys s, _) => inferInstanceAs (Decidable (strlen s < 2 ^ 30 ∧ 0 ∈ s))
  | (.copy sa_src, _) =>
    inferInstanceAs (Decidable (sa_src.len < 2 ^ 30 ∧ sa_src.len ≤ sa_src.memory.length))
  | (.catb s n, _) => inferInstanceAs (Decidable (state.2.len + n < 2 ^ 30 ∧ n ≤ s.length))
  | (.cats s, _) => inferInstanceAs (Decidable (state.2.len + strlen s < 2 ^ 30 ∧ 0 ∈ s))
  | (.cat sa_src, _) =>
    inferInstanceAs (Decidable (state.2.len + sa_src.len < 2 ^ 30 ∧
      sa_src.len ≤ sa_src.memory.length))
  | (.free, _) => .isTrue trivial

theorem take_strlen (s : List UInt8) : s.take (strlen s) = s.takeWhile (· ≠ 0) := by
  unfold strlen
  exact (List.prefix_iff_eq_take.mp (List.takeWhile_prefix _)).symm

theorem strlen_le (s : List UInt8) : strlen s ≤ s.length :=
  (List.takeWhile_prefix _).length_le

theorem represents_free (pool : Pool) {x : Stralloc} {t : Text} (h : Represents x t) :
    Represents (stralloc_free pool x).2 Text.empty := by
  unfold stralloc_free
  cases hs : x.s with
  | none =>
    rw [h.null hs] at h
    exact h
  | some block => exact represents_zero

/-- One allowed call, whatever the allocator does. -/
theorem call_represents (pool : Pool) {x : Stralloc} {t : Text} (h : Represents x t) {op : Op}
    {alloc : Allocation} (hallowed : Allowed (pool, x) (op, alloc)) :
    ∃ pool' x' success, call pool x alloc op = .ok (pool', x', success) ∧
      Represents x' (t.after op success) := by
  cases op with
  | ready n =>
    have hn : n < 2 ^ 30 := hallowed
    obtain ⟨pool', x', success, hready, h', _⟩ :=
      h.ready_with pool (Nat.le_of_lt hn) (Nat.le_of_lt hn) alloc
    exact ⟨pool', x', success, hready, by cases success <;> exact h'⟩
  | readyplus n =>
    have hn : x.len + n < 2 ^ 30 := hallowed
    obtain ⟨pool', x', success, hready, h', _⟩ :=
      h.ready_with pool (by omega : (n + x.len) % 2 ^ 32 ≤ 2 ^ 30) (by omega : n ≤ 2 ^ 30) alloc
    exact ⟨pool', x', success, hready, by cases success <;> exact h'⟩
  | copyb s n => exact h.copyb pool hallowed.1 hallowed.2 alloc
  | copys s =>
    obtain ⟨hn, _⟩ : strlen s < 2 ^ 30 ∧ 0 ∈ s := hallowed
    have hcopy := h.copyb pool hn (strlen_le s) alloc
    rw [take_strlen] at hcopy
    simp only [call, stralloc_copys, Nat.mod_eq_of_lt (by omega : strlen s < 2 ^ 32)]
    exact hcopy
  | copy sa_src => exact h.copyb pool hallowed.1 hallowed.2 alloc
  | catb s n => exact h.catb pool hallowed.1 hallowed.2 alloc
  | cats s =>
    obtain ⟨hn, _⟩ : x.len + strlen s < 2 ^ 30 ∧ 0 ∈ s := hallowed
    have hcat := h.catb pool hn (strlen_le s) alloc
    rw [take_strlen] at hcat
    simp only [call, stralloc_cats, Nat.mod_eq_of_lt (by omega : strlen s < 2 ^ 32)]
    exact hcat
  | cat sa_src => exact h.catb pool hallowed.1 hallowed.2 alloc
  | free => exact ⟨_, _, true, rfl, represents_free pool h⟩

/-- Every run of allowed calls on a zeroed string stays within its buffers, for
    any amount of pool left and any pattern of allocation failures, and leaves a
    string that represents the text that the successful calls make. -/
theorem contract_along_run (pool : Pool) {inputs : List (Op × Allocation)}
    (hallowed : Guarded exec Allowed (pool, Stralloc.zero) inputs) :
    ∃ state outs, run exec (pool, Stralloc.zero) inputs = .ok (state, outs) ∧
      Represents state.2 (observed (fun t input success => t.after input.1 success) Text.empty inputs outs) := by
  have hstep : ∀ (state : Pool × Stralloc) (t : Text) (input : Op × Allocation),
      Represents state.2 t → Allowed state input →
        ∃ state' success, exec state input = .ok (state', success) ∧
          Represents state'.2 (t.after input.1 success) := by
    rintro ⟨pool, x⟩ t ⟨op, alloc⟩ h hallowed
    obtain ⟨pool', x', success, hcall, h'⟩ := call_represents pool h hallowed
    refine ⟨(pool', x'), success, ?_, h'⟩
    unfold exec
    rw [hcall]
    rfl
  exact run_observed _ (fun state t => Represents state.2 t) hstep represents_zero hallowed

/-- A copy from `malloc`, an append that finds no memory and one that does. -/
theorem contract_along_run_failing :
    ∃ state outs, run exec (⟨0, []⟩, Stralloc.zero)
        [(.copyb [1, 2] 2, ⟨true, fun _ => 7⟩), (.cats [3, 4, 0], ⟨false, fun _ => 7⟩),
         (.catb [5] 1, ⟨true, fun _ => 7⟩)] = .ok (state, outs) ∧
      Represents state.2
        (observed (fun t (input : Op × Allocation) success => t.after input.1 success) Text.empty
          [(.copyb [1, 2] 2, ⟨true, fun _ => 7⟩), (.cats [3, 4, 0], ⟨false, fun _ => 7⟩),
           (.catb [5] 1, ⟨true, fun _ => 7⟩)] outs) :=
  contract_along_run ⟨0, []⟩ (by decide +kernel)

end code_tools.stralloc

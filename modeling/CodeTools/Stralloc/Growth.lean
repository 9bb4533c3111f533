import CodeTools.Stralloc.Model

/-!
# Growth near 2^32

A request is met by a buffer of the size that `a` claims unless one of the
unsigned sums on the way wraps. The last sum is the rounding in `_alloc`.
-/

namespace code_tools.stralloc

open cmem

/-! ## The allocator -/

/-- The size that `_alloc` makes of a request. -/
def rounded (n : Nat) : Nat := (ALIGNMENT + n - (n &&& (ALIGNMENT - 1))) % 2 ^ 32

theorem rounded_of_lt {n : Nat} (hn : n < 2 ^ 32 - 16) : n < rounded n := by
  have hand : n &&& 15 = n % 16 := Nat.and_two_pow_sub_one_eq_mod n 4
  unfold rounded ALIGNMENT
  rw [hand]
  omega

theorem rounded_wrap {n : Nat} (hlow : 2 ^ 32 - 16 ≤ n) (hn : n < 2 ^ 32) : rounded n = 0 := by
  have hand : n &&& 15 = n % 16 := Nat.and_two_pow_sub_one_eq_mod n 4
  unfold rounded ALIGNMENT
  rw [hand]
  omega

/-- A block that is handed out has the rounded size, and there is one whenever
    `malloc` succeeds. -/
theorem _alloc_spec (pool : Pool) (n : Nat) (alloc : Allocation) :
    ∃ pool' y, _alloc pool n alloc = (pool', y) ∧
      (∀ block, y = some block → block.bytes.length = rounded n) ∧
      (alloc.success = true → y.isSome = true) := by
  have hlen : ((List.range (rounded n)).map alloc.junk).length = rounded n := by simp
  unfold _alloc
  change ∃ pool' y, (if rounded n ≤ pool.avail then _ else _) = (pool', y) ∧ _
  by_cases hpool : rounded n ≤ pool.avail
  · rw [if_pos hpool]
    refine ⟨_, _, rfl, fun block hblock => ?_, fun _ => rfl⟩
    obtain rfl := Option.some.inj hblock
    exact hlen
  · rw [if_neg hpool]
    by_cases hsuccess : alloc.success = true
    · rw [if_pos hsuccess]
      refine ⟨_, _, rfl, fun block hblock => ?_, fun _ => rfl⟩
      obtain rfl := Option.some.inj hblock
      exact hlen
    · rw [if_neg hsuccess]
      exact ⟨_, _, rfl, by simp, fun htrue => absurd htrue hsuccess⟩

/-- Reallocation copies the old bytes into a block of the rounded size, provided
    they fit. -/
theorem _alloc_re_spec (pool : Pool) {x : Block} {m n : Nat} (alloc : Allocation)
    (hold : m ≤ x.bytes.length) (hfits : m ≤ rounded n) :
    ∃ pool' y, _alloc_re pool x m n alloc = .ok (pool', y) ∧
      (∀ block, y = some block → block.bytes.length = rounded n ∧
        block.bytes.take m = x.bytes.take m) ∧
      (alloc.success = true → y.isSome = true) := by
  obtain ⟨pool', y, halloc, hlen, hsome⟩ := _alloc_spec pool n alloc
  unfold _alloc_re
  rw [halloc]
  cases y with
  | none => exact ⟨pool', none, rfl, by simp, hsome⟩
  | some y =>
    have hbytes : (x.bytes.take m).length = m := by
      rw [List.length_take]
      omega
    obtain ⟨bytes, hblit, hlength, htake⟩ := blit_spec (by rw [hbytes, hlen y rfl]; omega :
      0 + (x.bytes.take m).length ≤ y.bytes.length)
    rw [hbytes, List.take_zero, List.nil_append, Nat.zero_add] at htake
    dsimp only
    rw [slice_eq (by omega), ok_bind, List.drop_zero, hblit, ok_bind]
    refine ⟨_, _, rfl, fun block hblock => ?_, fun _ => rfl⟩
    obtain rfl := Option.some.inj hblock
    exact ⟨hlength.trans (hlen y rfl), htake⟩

/-- A new block that is too small for the old bytes is overrun. -/
theorem _alloc_re_overrun (pool : Pool) {x : Block} {m n : Nat} {alloc : Allocation}
    (hsuccess : alloc.success = true) (hold : m ≤ x.bytes.length) (hsmall : rounded n < m) :
    _alloc_re pool x m n alloc = .error .outOfBounds := by
  obtain ⟨pool', y, halloc, hlen, hsome⟩ := _alloc_spec pool n alloc
  obtain ⟨y, rfl⟩ := Option.isSome_iff_exists.mp (hsome hsuccess)
  have hblit : blit y.bytes 0 (x.bytes.take m) = .error .outOfBounds := by
    unfold blit
    rw [if_neg]
    rw [List.length_take, hlen y rfl]
    omega
  unfold _alloc_re
  rw [halloc]
  dsimp only
  rw [slice_eq (by omega), ok_bind, List.drop_zero, hblit]
  rfl

/-! ## Requests -/

/-- What the growth formula makes of a request. -/
def enlarged (n : Nat) : Nat := (30 + n + (n >>> 3)) % 2 ^ 32

theorem enlarged_eq (n : Nat) : enlarged n = (30 + n + n / 8) % 2 ^ 32 := by
  unfold enlarged
  rw [Nat.shiftRight_eq_div_pow]

section Ready

variable (pool : Pool) {x : Stralloc} {block : Block} {n : Nat} (first : Nat)

theorem ready_with_none (hs : x.s = none) (n : Nat) (alloc : Allocation) :
    ∃ pool' y, ready_with pool x n first alloc = .ok (pool', { s := y, len := 0, a := first }, y.isSome) ∧
      (∀ block, y = some block → block.bytes.length = rounded first) ∧
      (alloc.success = true → y.isSome = true) := by
  obtain ⟨pool', y, halloc, hlen, hsome⟩ := _alloc_spec pool first alloc
  unfold ready_with
  rw [hs]
  dsimp only
  rw [halloc]
  exact ⟨pool', y, rfl, hlen, hsome⟩

theorem ready_with_room (hs : x.s = some block) (hroom : n ≤ x.a) (alloc : Allocation) :
    ready_with pool x n first alloc = .ok (pool, x, true) := by
  unfold ready_with
  rw [hs]
  dsimp only
  rw [if_neg (by omega)]

/-- Growth keeps the old bytes, or fails and keeps the string as it was. -/
theorem ready_with_grow (hs : x.s = some block) (hlarger : x.a < n) (hold : x.a ≤ block.bytes.length)
    (hfits : x.a ≤ rounded (enlarged n)) (alloc : Allocation) :
    ∃ pool' x' success, ready_with pool x n first alloc = .ok (pool', x', success) ∧
      (alloc.success = true → success = true) ∧ (success = false → x' = x) ∧
      (success = true → x'.a = enlarged n ∧ x'.len = x.len ∧ ∃ block', x'.s = some block' ∧
        block'.bytes.length = rounded (enlarged n) ∧ block'.bytes.take x.a = block.bytes.take x.a) := by
  obtain ⟨pool', y, halloc, hblock, hsome⟩ := _alloc_re_spec pool alloc hold hfits
  unfold ready_with
  rw [hs]
  dsimp only
  rw [if_pos hlarger]
  change ∃ _ _ _, (_alloc_re pool block x.a (enlarged n) alloc >>= _) = _ ∧ _
  rw [halloc, ok_bind]
  cases y with
  | none =>
    refine ⟨pool', x, false, ?_, fun hsuccess => hsome hsuccess, fun _ => rfl, by simp⟩
    rw [← hs]
  | some y =>
    obtain ⟨hlen, htake⟩ := hblock y rfl
    exact ⟨_, _, true, rfl, fun _ => rfl, by simp, fun _ => ⟨rfl, rfl, y, rfl, hlen, htake⟩⟩

theorem ready_with_overrun (hs : x.s = some block) (hlarger : x.a < n) (hold : x.a ≤ block.bytes.length)
    (hsmall : rounded (enlarged n) < x.a) {alloc : Allocation} (hsuccess : alloc.success = true) :
    ready_with pool x n first alloc = .error .outOfBounds := by
  unfold ready_with
  rw [hs]
  dsimp only
  rw [if_pos hlarger]
  change (_alloc_re pool block x.a (enlarged n) alloc >>= _) = _
  rw [_alloc_re_overrun pool hsuccess hold hsmall]
  rfl

end Ready

/-- The call stays within its buffers, and if it succeeds then `a` covers the
    request and the buffer really has `a` bytes. -/
def Grown (request : Nat) (result : Except Fault (Pool × Stralloc × Bool)) : Prop :=
  ∃ pool x success, result = .ok (pool, x, success) ∧ (success = true →
    request ≤ x.a ∧ ∃ block, x.s = some block ∧ x.a ≤ block.bytes.length)

/-- Room for `request` bytes can be had without a sum wrapping. -/
def Fits (x : Stralloc) (request : Nat) : Prop :=
  match x.s with
  | none => request < 2 ^ 32 - 16
  | some _ => request ≤ x.a ∨ 30 + request + request / 8 < 2 ^ 32 - 16

/-- An environment in which memory never runs out. -/
def plenty : Allocation := { success := true, junk := fun _ => 0 }

/-- A string without a buffer: the first buffer is large enough exactly when the
    rounding does not wrap. -/
theorem grown_none_iff (pool : Pool) {x : Stralloc} (hs : x.s = none) (n request : Nat) :
    (∀ alloc, Grown request (ready_with pool x n (request % 2 ^ 32) alloc)) ↔ Fits x request := by
  unfold Fits
  rw [hs]
  constructor
  · intro hall
    obtain ⟨pool', y, hready, hlen, hsome⟩ :=
      ready_with_none _ (request % 2 ^ 32) hs n plenty
    obtain ⟨_, _, _, heq, hgrown⟩ := hall plenty
    rw [hready] at heq
    obtain ⟨rfl, rfl, rfl⟩ := by simpa using heq
    obtain ⟨hcovers, block, hblock, hroom⟩ := hgrown (hsome rfl)
    dsimp only at hcovers hblock hroom ⊢
    rw [hlen block hblock] at hroom
    by_contra hwrap
    have hzero := rounded_wrap (by omega) (Nat.mod_lt request (by decide : 0 < 2 ^ 32))
    omega
  · intro hfits alloc
    dsimp only at hfits
    rw [Nat.mod_eq_of_lt (by omega)]
    obtain ⟨pool', y, hready, hlen, _⟩ := ready_with_none _ request hs n alloc
    refine ⟨_, _, _, hready, fun hsuccess => ⟨Nat.le_refl _, ?_⟩⟩
    obtain ⟨block, hblock⟩ := Option.isSome_iff_exists.mp hsuccess
    have hlt := rounded_of_lt hfits
    rw [← hlen block hblock] at hlt
    exact ⟨block, hblock, Nat.le_of_lt hlt⟩

/-- A string with a buffer: either the request fits already, or neither the
    growth formula nor the rounding wraps. -/
theorem grown_some_iff (pool : Pool) {x : Stralloc} {block : Block} (hs : x.s = some block)
    (hholds : x.a ≤ block.bytes.length) (ha : x.a < 2 ^ 32) (first request : Nat) :
    (∀ alloc, Grown request (ready_with pool x (request % 2 ^ 32) first alloc)) ↔ Fits x request := by
  unfold Fits
  rw [hs]
  dsimp only
  have hword : request % 2 ^ 32 < 2 ^ 32 := Nat.mod_lt _ (by decide)
  have henlarged := enlarged_eq (request % 2 ^ 32)
  constructor
  · intro hall
    obtain ⟨_, _, _, heq, hgrown⟩ := hall plenty
    by_cases hroom : request % 2 ^ 32 ≤ x.a
    · rw [ready_with_room _ _ hs hroom] at heq
      obtain ⟨rfl, rfl, rfl⟩ := by simpa using heq
      exact Or.inl (hgrown rfl).1
    · by_cases hfits : x.a ≤ rounded (enlarged (request % 2 ^ 32))
      · obtain ⟨pool', x', success, hready, hsome, _, hnew⟩ :=
          ready_with_grow _ _ hs (by omega) hholds hfits plenty (n := request % 2 ^ 32)
        rw [hready] at heq
        obtain ⟨rfl, rfl, rfl⟩ := by simpa using heq
        obtain ⟨hcovers, b, hb, hle⟩ := hgrown (hsome rfl)
        obtain ⟨hnewa, _, b', hb', hlen, _⟩ := hnew (hsome rfl)
        obtain rfl : b = b' := Option.some.inj (hb.symm.trans hb')
        rw [hlen, hnewa] at hle
        rw [hnewa] at hcovers
        right
        by_contra hwrap
        by_cases hlow : enlarged (request % 2 ^ 32) < 2 ^ 32 - 16
        · have hsmall : request % 2 ^ 32 = request := Nat.mod_eq_of_lt (by omega)
          rw [hsmall] at henlarged hcovers hlow
          omega
        · have hzero := rounded_wrap (by omega : 2 ^ 32 - 16 ≤ enlarged (request % 2 ^ 32)) (by omega)
          omega
      · rw [ready_with_overrun _ _ hs (by omega) hholds (by omega) rfl] at heq
        cases heq
  · intro hfits alloc
    have hsmall : request % 2 ^ 32 = request := Nat.mod_eq_of_lt (by omega)
    rw [hsmall] at henlarged ⊢
    by_cases hroom : request ≤ x.a
    · exact ⟨pool, x, true, ready_with_room _ _ hs hroom alloc, fun _ => ⟨hroom, block, hs, hholds⟩⟩
    · have hlt := rounded_of_lt (by omega : enlarged request < 2 ^ 32 - 16)
      obtain ⟨pool', x', success, hready, _, _, hnew⟩ :=
        ready_with_grow _ _ hs (by omega) hholds (by omega) alloc (n := request)
      refine ⟨pool', x', success, hready, fun hsuccess => ?_⟩
      obtain ⟨hnewa, _, block', hblock', hlen, _⟩ := hnew hsuccess
      rw [hnewa]
      exact ⟨by omega, block', hblock', by omega⟩

/-! ## Writing behind a request -/

section Write

variable {pool pool' : Pool} {x x' y : Stralloc} {block : Block} {s : List UInt8} {n first : Nat}
  {alloc : Allocation} {success : Bool}

/-- Making room never changes the length of a string with a buffer. -/
theorem len_of_ready_with (hs : x.s = some block)
    (hready : ready_with pool x n first alloc = .ok (pool', x', success)) : x'.len = x.len := by
  unfold ready_with at hready
  rw [hs] at hready
  dsimp only at hready
  split at hready
  · obtain ⟨⟨pool₁, y⟩, _, hrest⟩ := bind_eq_ok_iff.mp hready
    cases y with
    | none =>
      obtain ⟨_, rfl, _⟩ := by simpa using hrest
      rfl
    | some y =>
      obtain ⟨_, rfl, _⟩ := by simpa using hrest
      rfl
  · obtain ⟨_, rfl, _⟩ := by simpa using hready
    rfl

/-- With memory to spare a string with a buffer always gets its room. -/
theorem ready_with_plenty (hs : x.s = some block) (hholds : x.a ≤ block.bytes.length)
    (ha : x.a < 2 ^ 32) (hready : ready_with pool x n first plenty = .ok (pool', x', success)) :
    success = true ∧ x'.a < 2 ^ 32 := by
  by_cases hroom : n ≤ x.a
  · rw [ready_with_room _ _ hs hroom] at hready
    obtain ⟨rfl, rfl, rfl⟩ := by simpa using hready
    exact ⟨rfl, ha⟩
  · by_cases hfits : x.a ≤ rounded (enlarged n)
    · obtain ⟨pool₁, x₁, success₁, hready₁, hsome, _, hnew⟩ :=
        ready_with_grow _ _ hs (by omega) hholds hfits plenty
      rw [hready] at hready₁
      obtain ⟨rfl, rfl, rfl⟩ := by simpa using hready₁
      rw [(hnew (hsome rfl)).1, enlarged_eq]
      exact ⟨hsome rfl, Nat.mod_lt _ (by decide)⟩
    · rw [ready_with_overrun _ _ hs (by omega) hholds (by omega) rfl] at hready
      cases hready

/-- A copy into a buffer with room for the bytes and their terminator. -/
theorem copyb_of_ready (hready : stralloc_ready pool x ((n + 1) % 2 ^ 32) alloc = .ok (pool', x', true))
    (hs : x'.s = some block) (hroom : n < block.bytes.length) (hsrc : n ≤ s.length) :
    ∃ block', stralloc_copyb pool x s n alloc =
        .ok (pool', { x' with s := some block', len := n }, true) ∧
      block'.bytes.length = block.bytes.length ∧ block'.bytes.take n = s.take n ∧
      block'.bytes[n]? = some 0 := by
  have hbytes : (s.take n).length = n := by
    rw [List.length_take]
    omega
  obtain ⟨dst₁, dst₂, hfirst, hsecond, hlen, htake, hget⟩ := blit_concat (0 : UInt8)
    (by rw [hbytes]; omega : 0 + (s.take n).length < block.bytes.length)
  rw [hbytes, Nat.zero_add] at hsecond htake hget
  refine ⟨{ block with bytes := dst₂ }, ?_, hlen, by simpa using htake, hget⟩
  unfold stralloc_copyb
  rw [hready, ok_bind]
  dsimp only
  rw [hs]
  dsimp only
  rw [slice_eq (by omega), ok_bind, List.drop_zero, hfirst, ok_bind, hsecond, ok_bind]

theorem copyb_of_not_ready
    (hready : stralloc_ready pool x ((n + 1) % 2 ^ 32) alloc = .ok (pool', x', false)) :
    stralloc_copyb pool x s n alloc = .ok (pool', x', false) := by
  unfold stralloc_copyb
  rw [hready]
  rfl

/-- What a copy that stays within its buffers tells about its request. -/
theorem ready_of_copyb (hcopy : stralloc_copyb pool x s n alloc = .ok (pool', y, success)) :
    ∃ x', stralloc_ready pool x ((n + 1) % 2 ^ 32) alloc = .ok (pool', x', success) ∧
      (success = true → y.a = x'.a ∧ ∃ block block', x'.s = some block ∧ y.s = some block' ∧
        block'.bytes.length = block.bytes.length) := by
  unfold stralloc_copyb at hcopy
  obtain ⟨⟨pool₁, x₁, success₁⟩, hready, hrest⟩ := bind_eq_ok_iff.mp hcopy
  cases success₁ with
  | false =>
    obtain ⟨rfl, rfl, rfl⟩ := by simpa using hrest
    exact ⟨x₁, hready, by simp⟩
  | true =>
    dsimp only at hrest
    cases hs : x₁.s with
    | none =>
      rw [hs] at hrest
      cases hrest
    | some block =>
      rw [hs] at hrest
      obtain ⟨src, _, hrest⟩ := bind_eq_ok_iff.mp hrest
      obtain ⟨dst₁, hfirst, hrest⟩ := bind_eq_ok_iff.mp hrest
      obtain ⟨dst₂, hsecond, hrest⟩ := bind_eq_ok_iff.mp hrest
      obtain ⟨rfl, rfl, rfl⟩ := by simpa using hrest
      refine ⟨x₁, hready, fun _ => ⟨rfl, block, _, hs, rfl, ?_⟩⟩
      exact (length_of_blit hsecond).trans (length_of_blit hfirst)

/-- Appending into a buffer with room, at an offset that an `int` can hold. -/
theorem catb_of_ready (hx : x.s.isNone = false)
    (hready : stralloc_readyplus pool x ((n + 1) % 2 ^ 32) alloc = .ok (pool', x', true))
    (hs : x'.s = some block) (hint : x'.len + n < 2 ^ 31) (hroom : x'.len + n < block.bytes.length)
    (hsrc : n ≤ s.length) :
    ∃ block', stralloc_catb pool x s n alloc =
        .ok (pool', { x' with s := some block', len := x'.len + n }, true) ∧
      block'.bytes.length = block.bytes.length ∧
      block'.bytes.take (x'.len + n) = block.bytes.take x'.len ++ s.take n ∧
      block'.bytes[x'.len + n]? = some 0 := by
  have hbytes : (s.take n).length = n := by
    rw [List.length_take]
    omega
  obtain ⟨dst₁, dst₂, hfirst, hsecond, hlen, htake, hget⟩ := blit_concat (0 : UInt8)
    (by rw [hbytes]; exact hroom : x'.len + (s.take n).length < block.bytes.length)
  rw [hbytes] at hsecond htake hget
  have hword : (x'.len + n) % 2 ^ 32 = x'.len + n := Nat.mod_eq_of_lt (by omega)
  refine ⟨{ block with bytes := dst₂ }, ?_, hlen, htake, hget⟩
  unfold stralloc_catb blit_int
  rw [hx, if_neg (by simp), hready, ok_bind]
  dsimp only
  rw [hs]
  dsimp only
  rw [slice_eq (by omega), ok_bind, List.drop_zero, if_pos (by omega), hfirst, ok_bind, hword,
    if_pos hint, hsecond, ok_bind]

theorem catb_of_not_ready (hx : x.s.isNone = false)
    (hready : stralloc_readyplus pool x ((n + 1) % 2 ^ 32) alloc = .ok (pool', x', false)) :
    stralloc_catb pool x s n alloc = .ok (pool', x', false) := by
  unfold stralloc_catb
  rw [hx, if_neg (by simp), hready]
  rfl

/-- What an append that stays within its buffers tells about its request and
    its offsets. -/
theorem ready_of_catb (hx : x.s.isNone = false)
    (hcat : stralloc_catb pool x s n alloc = .ok (pool', y, success)) :
    ∃ x', stralloc_readyplus pool x ((n + 1) % 2 ^ 32) alloc = .ok (pool', x', success) ∧
      (success = true → x'.len < 2 ^ 31 ∧ (x'.len + n) % 2 ^ 32 < 2 ^ 31 ∧ y.a = x'.a) := by
  unfold stralloc_catb at hcat
  rw [hx, if_neg (by simp)] at hcat
  obtain ⟨⟨pool₁, x₁, success₁⟩, hready, hrest⟩ := bind_eq_ok_iff.mp hcat
  cases success₁ with
  | false =>
    obtain ⟨rfl, rfl, rfl⟩ := by simpa using hrest
    exact ⟨x₁, hready, by simp⟩
  | true =>
    dsimp only at hrest
    cases hs : x₁.s with
    | none =>
      rw [hs] at hrest
      cases hrest
    | some block =>
      rw [hs] at hrest
      obtain ⟨src, _, hrest⟩ := bind_eq_ok_iff.mp hrest
      obtain ⟨dst₁, hfirst, hrest⟩ := bind_eq_ok_iff.mp hrest
      obtain ⟨dst₂, hsecond, hrest⟩ := bind_eq_ok_iff.mp hrest
      obtain ⟨rfl, rfl, rfl⟩ := by simpa using hrest
      refine ⟨x₁, hready, fun _ => ⟨?_, ?_, rfl⟩⟩
      · by_contra hlarge
        unfold blit_int at hfirst
        rw [if_neg hlarge] at hfirst
        cases hfirst
      · by_contra hlarge
        unfold blit_int at hsecond
        rw [if_neg hlarge] at hsecond
        cases hsecond

end Write

/-! ## Every request -/

/-- The bytes that a call asks for, its terminator included. A string without a
    buffer counts as empty. -/
def request (x : Stralloc) : Op → Nat
  | .ready n => n
  | .readyplus n => if x.s.isNone then n else x.len + n
  | .copyb _ n => n + 1
  | .catb _ n => if x.s.isNone then n + 1 else x.len + n + 1
  | .copys _ => 0
  | .copy _ => 0
  | .cats _ => 0
  | .cat _ => 0
  | .free => 0

/-- The four calls that state their request themselves, with a length that is a
    32-bit word and covered by the source. -/
def Direct : Op → Prop
  | .ready n => n < 2 ^ 32
  | .readyplus n => n < 2 ^ 32
  | .copyb s n => n < 2 ^ 32 ∧ n ≤ s.length
  | .catb s n => n < 2 ^ 32 ∧ n ≤ s.length
  | .copys _ => False
  | .copy _ => False
  | .cats _ => False
  | .cat _ => False
  | .free => False

/-- No sum that the call computes wraps, and an append to a buffer ends at an
    offset that an `int` can hold. -/
def NoWrap (x : Stralloc) : Op → Prop
  | .catb _ n => if x.s.isNone then Fits x (n + 1) else x.len + n < 2 ^ 31
  | op => Fits x (request x op)

theorem grown_ready_iff (pool : Pool) {x : Stralloc} (hholds : ∀ block, x.s = some block →
      x.a ≤ block.bytes.length) (ha : x.a < 2 ^ 32) (n : Nat) :
    (∀ alloc, Grown n (stralloc_ready pool x (n % 2 ^ 32) alloc)) ↔ Fits x n := by
  unfold stralloc_ready
  cases hs : x.s with
  | none => exact grown_none_iff pool hs (n % 2 ^ 32) n
  | some block => exact grown_some_iff pool hs (hholds block hs) ha (n % 2 ^ 32) n

theorem grown_copyb_iff (pool : Pool) {x : Stralloc} (hholds : ∀ block, x.s = some block →
      x.a ≤ block.bytes.length) (ha : x.a < 2 ^ 32) {s : List UInt8} {n : Nat} (hsrc : n ≤ s.length) :
    (∀ alloc, Grown (n + 1) (stralloc_copyb pool x s n alloc)) ↔ Fits x (n + 1) := by
  rw [← grown_ready_iff pool hholds ha (n + 1)]
  apply forall_congr'
  intro alloc
  constructor
  · rintro ⟨pool', y, success, hcopy, hgrown⟩
    obtain ⟨x', hready, hsame⟩ := ready_of_copyb hcopy
    refine ⟨pool', x', success, hready, fun hsuccess => ?_⟩
    obtain ⟨hcovers, b, hb, hle⟩ := hgrown hsuccess
    obtain ⟨heq, block, block', hblock, hblock', hlen⟩ := hsame hsuccess
    obtain rfl : b = block' := Option.some.inj (hb.symm.trans hblock')
    exact ⟨by omega, block, hblock, by omega⟩
  · rintro ⟨pool', x', success, hready, hgrown⟩
    cases success with
    | false => exact ⟨pool', x', false, copyb_of_not_ready hready, by simp⟩
    | true =>
      obtain ⟨hcovers, block, hblock, hle⟩ := hgrown rfl
      obtain ⟨block', hcopy, hlen, _⟩ := copyb_of_ready hready hblock (by omega) hsrc
      exact ⟨pool', _, true, hcopy, fun _ => ⟨hcovers, block', rfl, by rw [hlen]; exact hle⟩⟩

theorem grown_catb_iff (pool : Pool) {x : Stralloc} {block : Block} (hs : x.s = some block)
    (hholds : x.a ≤ block.bytes.length) (ha : x.a < 2 ^ 32) {s : List UInt8} {n : Nat}
    (hsrc : n ≤ s.length) :
    (∀ alloc, Grown (x.len + n + 1) (stralloc_catb pool x s n alloc)) ↔ x.len + n < 2 ^ 31 := by
  have hnone : x.s.isNone = false := by rw [hs]; rfl
  have hsum : ((n + 1) % 2 ^ 32 + x.len) % 2 ^ 32 = (x.len + n + 1) % 2 ^ 32 := by omega
  constructor
  · intro hall
    obtain ⟨pool', y, success, hcat, hgrown⟩ := hall plenty
    obtain ⟨x', hready, hbounds⟩ := ready_of_catb hnone hcat
    have hlen := len_of_ready_with hs hready
    obtain ⟨rfl, ha'⟩ := ready_with_plenty hs hholds ha hready
    obtain ⟨hlow, hend, hya⟩ := hbounds rfl
    obtain ⟨hcovers, _⟩ := hgrown rfl
    rw [hlen] at hend
    rw [Nat.mod_eq_of_lt (by omega)] at hend
    exact hend
  · intro hint alloc
    have hfits : Fits x (x.len + n + 1) := by
      unfold Fits
      rw [hs]
      right
      omega
    obtain ⟨pool', x', success, hready, hgrown⟩ :=
      (grown_some_iff pool hs hholds ha ((n + 1) % 2 ^ 32) (x.len + n + 1)).mpr hfits alloc
    have hplus : stralloc_readyplus pool x ((n + 1) % 2 ^ 32) alloc = .ok (pool', x', success) := by
      unfold stralloc_readyplus
      rw [hsum]
      exact hready
    cases success with
    | false => exact ⟨pool', x', false, catb_of_not_ready hnone hplus, by simp⟩
    | true =>
      obtain ⟨hcovers, block', hblock', hle⟩ := hgrown rfl
      have hlen := len_of_ready_with hs hready
      obtain ⟨block'', hcat, hsize, _⟩ :=
        catb_of_ready hnone hplus hblock' (by omega) (by omega) hsrc
      exact ⟨pool', _, true, hcat, fun _ => ⟨hcovers, block'', rfl, by rw [hsize]; exact hle⟩⟩

/-- For every string whose buffer has the bytes that `a` claims, and for every
    32-bit length: whatever the allocator does, the call stays within its
    buffers and its success means what it says, if and only if no sum wraps. -/
theorem grown_iff_noWrap (pool : Pool) {x : Stralloc} (hholds : ∀ block, x.s = some block →
      x.a ≤ block.bytes.length) (ha : x.a < 2 ^ 32) {op : Op} (hop : Direct op) :
    (∀ alloc, Grown (request x op) (call pool x alloc op)) ↔ NoWrap x op := by
  cases op with
  | ready n =>
    have hready := grown_ready_iff pool hholds ha n
    rw [Nat.mod_eq_of_lt hop] at hready
    exact hready
  | readyplus n =>
    show (∀ alloc, Grown (if x.s.isNone then n else x.len + n)
      (ready_with pool x ((n + x.len) % 2 ^ 32) n alloc)) ↔ Fits x (if x.s.isNone then n else x.len + n)
    cases hs : x.s with
    | none =>
      have hnone := grown_none_iff pool hs ((n + x.len) % 2 ^ 32) n
      rw [Nat.mod_eq_of_lt hop] at hnone
      exact hnone
    | some block =>
      have hsome := grown_some_iff pool hs (hholds block hs) ha n (x.len + n)
      rw [Nat.add_comm n]
      exact hsome
  | copyb s n => exact grown_copyb_iff pool hholds ha hop.2
  | catb s n =>
    show (∀ alloc, Grown (if x.s.isNone then n + 1 else x.len + n + 1)
      (stralloc_catb pool x s n alloc)) ↔ if x.s.isNone then Fits x (n + 1) else x.len + n < 2 ^ 31
    cases hs : x.s with
    | none =>
      have hcat : ∀ alloc, stralloc_catb pool x s n alloc = stralloc_copyb pool x s n alloc := by
        intro alloc
        unfold stralloc_catb
        rw [hs]
        rfl
      simp only [hcat]
      exact grown_copyb_iff pool hholds ha hop.2
    | some block => exact grown_catb_iff pool hs (hholds block hs) ha hop.2
  | copys s => exact hop.elim
  | copy sa_src => exact hop.elim
  | cats s => exact hop.elim
  | cat sa_src => exact hop.elim
  | free => exact hop.elim

/-- A first request of ten bytes. -/
theorem grown_iff_noWrap_ten :
    (∀ alloc, Grown 10 (call { avail := SPACE, freed := [] } Stralloc.zero alloc (.ready 10))) ↔
      NoWrap Stralloc.zero (.ready 10) :=
  grown_iff_noWrap _ (by simp [Stralloc.zero]) (by decide) (by decide : (10 : Nat) < 2 ^ 32)

/-- A first request of 2^32 - 16 bytes succeeds with a block of no bytes. -/
theorem ready_wraps :
    ¬∀ alloc, Grown 4294967280
      (call { avail := SPACE, freed := [] } Stralloc.zero alloc (.ready 4294967280)) := by
  intro hall
  obtain ⟨pool', x, success, hready, hgrown⟩ := hall plenty
  have heval : call { avail := SPACE, freed := [] } Stralloc.zero plenty (.ready 4294967280) =
      .ok ({ avail := SPACE, freed := [] },
        { s := some { origin := .space SPACE, bytes := [] }, len := 0, a := 4294967280 }, true) := rfl
  rw [heval] at hready
  obtain ⟨rfl, rfl, rfl⟩ := by simpa using hready
  obtain ⟨_, block, hblock, hle⟩ := hgrown rfl
  obtain rfl := Option.some.inj hblock
  simp at hle

end code_tools.stralloc

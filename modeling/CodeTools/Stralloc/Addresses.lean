import CodeTools.Lib.Machine
import CodeTools.Lib.Region
import CodeTools.Lib.Syscall
import CodeTools.Stralloc.Growth

/-!
# The pool of `stralloc.c` by addresses

Pointers are numbers here, and `_alloc_free` tells by the range of the static
array whether a block came from there. What `malloc` answers comes with each
call.
-/

namespace code_tools.stralloc.addresses

open cmem machine region syscall

/-- Where the static array `space` lies. Arrays of this size are aligned to 16
    bytes. -/
structure Layout where
  space : Nat
  aligned : ALIGNMENT ∣ space
  nonnull : 0 < space
  fits : space + SPACE ≤ 2 ^ 64

def Layout.pool (L : Layout) : Range := ⟨L.space, SPACE⟩

/-- A block that was handed out for a request of `n` bytes, from the pool or by
    `malloc`. -/
structure Lease where
  address : Nat
  n : Nat
  pooled : Bool
deriving DecidableEq, Repr

def Lease.range (b : Lease) : Range := ⟨b.address, rounded b.n⟩

/-- The static `avail` and the memory, with all that was handed out and given back
    so far. -/
structure Arena where
  avail : Nat
  memory : Nat → UInt8
  live : List Lease
  /-- Whatever came from the pool. -/
  served : List Lease
  /-- The pointers given to `free`. -/
  freed : List Nat
  /-- The blocks given to `_alloc_free`. -/
  released : List Lease

def start (memory : Nat → UInt8) : Arena :=
  { avail := SPACE, memory := memory, live := [], served := [], freed := [], released := [] }

/-- The new `avail` and the pointer. -/
def _alloc (L : Layout) (avail n malloc : Nat) : Nat × Nat :=
  let n := (ALIGNMENT + n - (n &&& (ALIGNMENT - 1))) % 2 ^ 32
  if n ≤ avail then (avail - n, L.space + (avail - n)) else (avail, malloc)

def _alloc_free (L : Layout) (freed : List Nat) (x : Nat) : List Nat :=
  if x ≥ L.space then
    if x < L.space + SPACE then freed else freed ++ [x]
  else freed ++ [x]

/-! ## Calls -/

namespace Arena

/-- A call of `_alloc`. `malloc` answers `NULL` or memory that nobody has. -/
def alloc (L : Layout) (s : Arena) (n malloc : Nat) : Except Stuck (Arena × Nat) :=
  let (avail, x) := _alloc L s.avail n malloc
  let b : Lease := { address := x, n := n, pooled := decide (rounded n ≤ s.avail) }
  if x = 0 then .ok ({ s with avail := avail }, x)
  else if b.pooled = false ∧ ¬(b.range.Apart L.pool ∧ ∀ c ∈ s.live, b.range.Apart c.range) then .error .answer
  else
    .ok ({ s with
      avail := avail
      live := b :: s.live
      served := if b.pooled then b :: s.served else s.served }, x)

/-- A call of `_alloc_free` on a block that is live. -/
def alloc_free (L : Layout) (s : Arena) (b : Lease) : Arena :=
  { s with
    live := s.live.erase b
    freed := _alloc_free L s.freed b.address
    released := s.released ++ [b] }

/-- A call of `_alloc_re`, with what `*x` is afterwards. -/
def alloc_re (L : Layout) (s : Arena) (x : Lease) (m n malloc : Nat) : Except Stuck (Arena × Nat) := do
  let (s, y) ← alloc L s n malloc
  if y = 0 then .ok (s, x.address)
  else if rounded x.n < m ∨ rounded n < m then .error .pointer
  else .ok (alloc_free L { s with memory := memcpy s.memory y x.address m } x, y)

/-- The live block at an address. -/
def find (s : Arena) (x : Nat) : Except Stuck Lease :=
  match s.live.find? fun b => b.address = x with
  | none => .error .pointer
  | some b => .ok b

end Arena

inductive Call where
  | alloc (n malloc : Nat)
  | alloc_re (x m n malloc : Nat)
  | alloc_free (x : Nat)
deriving DecidableEq, Repr

/-- The size that `_alloc` is asked for. -/
def Call.request : Call → Nat
  | .alloc n _ => n
  | .alloc_re _ _ n _ => n
  | .alloc_free _ => 0

def step (L : Layout) (s : Arena) : Call → Except Stuck (Arena × Nat)
  | .alloc n malloc => s.alloc L n malloc
  | .alloc_re x m n malloc => do
    let b ← s.find x
    s.alloc_re L b m n malloc
  | .alloc_free x => do
    let b ← s.find x
    .ok (s.alloc_free L b, 0)

/-! ## What a call keeps -/

def Disjoint (blocks : List Lease) : Prop := blocks.Pairwise fun b c => b.range.Apart c.range

/-- A block of the pool: aligned, large enough, and above what is still available. -/
structure Served (L : Layout) (avail : Nat) (b : Lease) : Prop where
  aligned : ALIGNMENT ∣ b.address
  room : b.n < rounded b.n
  low : L.space + avail ≤ b.address
  high : b.address + rounded b.n ≤ L.space + SPACE

/-- The pool and the blocks are in order. -/
structure Sound (L : Layout) (s : Arena) : Prop where
  aligned : ALIGNMENT ∣ s.avail
  bounded : s.avail ≤ SPACE
  served : ∀ b ∈ s.served, Served L s.avail b
  disjoint : Disjoint s.served
  pooled : ∀ b ∈ s.live, b.pooled = true → b ∈ s.served
  malloced : ∀ b ∈ s.live, b.pooled = false → b.range.Apart L.pool ∧ b.n < rounded b.n
  apart : Disjoint s.live
  freed : s.freed = (s.released.filter fun b => !b.pooled).map Lease.address

theorem sound_start (L : Layout) (memory : Nat → UInt8) : Sound L (start memory) := by
  constructor <;> simp [start, Disjoint, ALIGNMENT, SPACE]

theorem aligned_rounded (n : Nat) : ALIGNMENT ∣ rounded n := by
  have hand : n &&& 15 = n % 16 := Nat.and_two_pow_sub_one_eq_mod n 4
  unfold rounded ALIGNMENT
  rw [hand]
  omega

section Keeps

variable {L : Layout} {s s' : Arena}

theorem _alloc_of_fits {avail n : Nat} (hfits : rounded n ≤ avail) (malloc : Nat) :
    _alloc L avail n malloc = (avail - rounded n, L.space + (avail - rounded n)) := if_pos hfits

theorem _alloc_of_full {avail n : Nat} (hfull : ¬rounded n ≤ avail) (malloc : Nat) :
    _alloc L avail n malloc = (avail, malloc) := if_neg hfull

/-- Blocks of the pool stay what they are when it shrinks. -/
theorem Served.mono {avail avail' : Nat} {b : Lease} (hserved : Served L avail b) (hle : avail' ≤ avail) :
    Served L avail' b :=
  { hserved with low := by have hlow := hserved.low; omega }

theorem Served.within {avail : Nat} {b : Lease} (hserved : Served L avail b) : b.range.Within L.pool := by
  have hlow := hserved.low
  have hhigh := hserved.high
  exact ⟨by dsimp only [Lease.range, Layout.pool]; omega, hhigh⟩

/-- Where the live blocks lie: in the pool and above what is available, or outside. -/
theorem Sound.live (hsound : Sound L s) {b : Lease} (hb : b ∈ s.live) :
    b.n < rounded b.n ∧ ((b.pooled = true ∧ Served L s.avail b) ∨
      (b.pooled = false ∧ b.range.Apart L.pool)) := by
  cases hpooled : b.pooled with
  | true =>
    have hserved := hsound.served b (hsound.pooled b hb hpooled)
    exact ⟨hserved.room, Or.inl ⟨rfl, hserved⟩⟩
  | false =>
    obtain ⟨hapart, hroom⟩ := hsound.malloced b hb hpooled
    exact ⟨hroom, Or.inr ⟨rfl, hapart⟩⟩

/-- The test of `_alloc_free` goes by the address, and tells where the block came
    from. -/
theorem Sound.alloc_free_freed (hsound : Sound L s) {b : Lease} (hb : b ∈ s.live) :
    _alloc_free L s.freed b.address = if b.pooled then s.freed else s.freed ++ [b.address] := by
  obtain ⟨hroom, ⟨hpooled, hserved⟩ | ⟨hpooled, hapart⟩⟩ := hsound.live hb
  · have hlow := hserved.low
    have hhigh := hserved.high
    rw [hpooled, _alloc_free, if_pos (by omega), if_pos (by omega), if_pos rfl]
  · unfold Range.Apart Lease.range Layout.pool at hapart
    dsimp only at hapart
    rw [hpooled, _alloc_free]
    by_cases hlow : b.address ≥ L.space
    · rw [if_pos hlow, if_neg (by omega)]
      rfl
    · rw [if_neg hlow]
      rfl

theorem Sound.alloc_free (hsound : Sound L s) {b : Lease} (hb : b ∈ s.live) : Sound L (s.alloc_free L b) := by
  have hsub : ∀ c ∈ s.live.erase b, c ∈ s.live := fun c hc => List.mem_of_mem_erase hc
  refine
    { aligned := hsound.aligned, bounded := hsound.bounded, served := hsound.served, disjoint := hsound.disjoint,
      pooled := fun c hc => hsound.pooled c (hsub c hc), malloced := fun c hc => hsound.malloced c (hsub c hc),
      apart := hsound.apart.sublist List.erase_sublist, freed := ?_ }
  change _alloc_free L s.freed b.address = ((s.released ++ [b]).filter fun b => !b.pooled).map Lease.address
  rw [hsound.alloc_free_freed hb, List.filter_append, List.map_append, ← hsound.freed]
  cases hpooled : b.pooled <;> simp [hpooled]

/-- What a successful `_alloc` hands out lies apart from all that is live. -/
structure Arena.Grown (L : Layout) (s s' : Arena) (b : Lease) : Prop where
  live : s'.live = b :: s.live
  memory : s'.memory = s.memory
  room : b.n < rounded b.n
  apart : ∀ c ∈ s.live, b.range.Apart c.range
  sound : Sound L s'

/-- A block of the pool is cut off below the ones that were served before. -/
theorem Sound.serve (hsound : Sound L s) {b : Lease} (hn : b.n < 2 ^ 32 - 16) (hfits : rounded b.n ≤ s.avail)
    (haddress : b.address = L.space + (s.avail - rounded b.n)) :
    Served L (s.avail - rounded b.n) b ∧ (∀ c ∈ s.served, b.range.Apart c.range) ∧
      ∀ c ∈ s.live, b.range.Apart c.range := by
  have hbounded := hsound.bounded
  have hserved : Served L (s.avail - rounded b.n) b := by
    refine ⟨?_, rounded_of_lt hn, by omega, by omega⟩
    rw [haddress]
    exact Nat.dvd_add L.aligned (Nat.dvd_sub hsound.aligned (aligned_rounded b.n))
  have hbelow : ∀ c ∈ s.served, b.range.Apart c.range := by
    intro c hc
    have hlow := (hsound.served c hc).low
    refine Or.inl ?_
    dsimp only [Lease.range]
    omega
  refine ⟨hserved, hbelow, fun c hc => ?_⟩
  obtain ⟨_, ⟨hpooled, _⟩ | ⟨_, hapart⟩⟩ := hsound.live hc
  · exact hbelow c (hsound.pooled c hc hpooled)
  · exact hapart.symm.of_within hserved.within

theorem Sound.alloc (hsound : Sound L s) {n malloc x : Nat} (hn : n < 2 ^ 32 - 16)
    (halloc : s.alloc L n malloc = .ok (s', x)) :
    (x = 0 ∧ s' = s) ∨ ∃ b : Lease, b.address = x ∧ b.n = n ∧ x ≠ 0 ∧ s.Grown L s' b := by
  have hspace := Nat.ne_of_gt L.nonnull
  unfold Arena.alloc at halloc
  by_cases hfits : rounded n ≤ s.avail
  · simp only [_alloc_of_fits hfits, hfits, decide_true, Nat.add_eq_zero_iff, hspace, false_and, if_false,
      Bool.true_eq_false, if_true, Except.ok.injEq, Prod.mk.injEq] at halloc
    obtain ⟨rfl, rfl⟩ := halloc
    let b : Lease := { address := L.space + (s.avail - rounded n), n := n, pooled := true }
    obtain ⟨hserved, hbelow, hapart⟩ := hsound.serve (b := b) hn hfits rfl
    have hless : s.avail - rounded n ≤ s.avail := Nat.sub_le _ _
    refine Or.inr ⟨b, rfl, rfl, by omega, rfl, rfl, rounded_of_lt hn, hapart, ?_⟩
    refine
      { aligned := Nat.dvd_sub hsound.aligned (aligned_rounded n)
        bounded := Nat.le_trans hless hsound.bounded
        served := ?_
        disjoint := List.pairwise_cons.mpr ⟨hbelow, hsound.disjoint⟩
        pooled := ?_
        malloced := ?_
        apart := List.pairwise_cons.mpr ⟨hapart, hsound.apart⟩
        freed := hsound.freed }
    · exact List.forall_mem_cons.mpr ⟨hserved, fun c hc => (hsound.served c hc).mono hless⟩
    · refine List.forall_mem_cons.mpr ⟨fun _ => List.mem_cons_self, fun c hc hpooled => ?_⟩
      exact List.mem_cons_of_mem b (hsound.pooled c hc hpooled)
    · exact List.forall_mem_cons.mpr ⟨nofun, hsound.malloced⟩
  · simp only [_alloc_of_full hfits, hfits, decide_false, true_and] at halloc
    split at halloc
    case isTrue hnull =>
      cases halloc
      exact Or.inl ⟨hnull, rfl⟩
    split at halloc
    case isTrue => cases halloc
    case isFalse hnull hanswer =>
      cases halloc
      obtain ⟨houtside, hapart⟩ := not_not.mp hanswer
      refine Or.inr ⟨_, rfl, rfl, hnull, rfl, rfl, rounded_of_lt hn, hapart, ?_⟩
      exact
        { hsound with
          pooled := List.forall_mem_cons.mpr ⟨nofun, hsound.pooled⟩
          malloced := List.forall_mem_cons.mpr ⟨fun _ => ⟨houtside, rounded_of_lt hn⟩, hsound.malloced⟩
          apart := List.pairwise_cons.mpr ⟨hapart, hsound.apart⟩ }

theorem Sound.with_memory (hsound : Sound L s) (memory : Nat → UInt8) :
    Sound L { s with memory := memory } :=
  { hsound with }

/-- A block that was reallocated holds what the old one held, and all others hold
    what they held before. -/
theorem Sound.alloc_re (hsound : Sound L s) {x : Lease} (hx : x ∈ s.live) {m n malloc y : Nat}
    (hn : n < 2 ^ 32 - 16) (hre : s.alloc_re L x m n malloc = .ok (s', y)) :
    Sound L s' ∧ (∀ c ∈ s.live, bytes s'.memory c.range = bytes s.memory c.range) ∧
      (s' = s ∨ ∃ b ∈ s'.live, b.address = y ∧ b.n = n ∧
        bytes s'.memory ⟨y, m⟩ = bytes s.memory ⟨x.address, m⟩) := by
  obtain ⟨⟨s₁, y₁⟩, halloc, hrest⟩ := bind_eq_ok_iff.mp hre
  obtain ⟨rfl, rfl⟩ | ⟨b, rfl, rfl, hnonnull, hgrown⟩ := hsound.alloc hn halloc
  · cases hrest
    exact ⟨hsound, fun _ _ => rfl, Or.inl rfl⟩
  dsimp only at hrest
  rw [if_neg hnonnull] at hrest
  split at hrest
  case isTrue => cases hrest
  case isFalse hfits =>
    cases hrest
    have hlive := hgrown.live
    have hwithin : Range.Within ⟨b.address, m⟩ b.range := by
      refine ⟨Nat.le_refl _, ?_⟩
      dsimp only [Lease.range]
      omega
    have hx₁ : x ∈ s₁.live := by
      rw [hlive]
      exact List.mem_cons_of_mem b hx
    have hne : b ≠ x := by
      intro heq
      have hroom := hgrown.room
      exact (hgrown.apart x hx).ne (show 0 < rounded b.n by omega) (congrArg Lease.range heq)
    refine ⟨(hgrown.sound.with_memory _).alloc_free hx₁, ?_, Or.inr ⟨b, ?_, rfl, rfl, ?_⟩⟩
    · intro c hc
      rw [← hgrown.memory]
      exact bytes_memcpy_apart s₁.memory ((hgrown.apart c hc).of_within hwithin)
    · change b ∈ s₁.live.erase x
      rw [hlive, List.mem_erase_of_ne hne]
      exact List.mem_cons_self
    · rw [← hgrown.memory]
      exact bytes_memcpy s₁.memory b.address x.address m

theorem find_mem {x : Nat} {b : Lease} (hfind : s.find x = .ok b) : b ∈ s.live := by
  unfold Arena.find at hfind
  split at hfind
  case h_1 => cases hfind
  case h_2 hsome =>
    cases hfind
    exact List.mem_of_find?_eq_some hsome

theorem Sound.step (hsound : Sound L s) {call : Call} (hrequest : call.request < 2 ^ 32 - 16) {out : Nat}
    (hstep : step L s call = .ok (s', out)) : Sound L s' := by
  cases call with
  | alloc n malloc =>
    obtain ⟨_, rfl⟩ | ⟨b, _, _, _, hgrown⟩ := hsound.alloc hrequest hstep
    · exact hsound
    · exact hgrown.sound
  | alloc_re x m n malloc =>
    obtain ⟨b, hfind, hre⟩ := bind_eq_ok_iff.mp hstep
    exact (hsound.alloc_re (find_mem hfind) hrequest hre).1
  | alloc_free x =>
    obtain ⟨b, hfind, hfree⟩ := bind_eq_ok_iff.mp hstep
    cases hfree
    exact hsound.alloc_free (find_mem hfind)

end Keeps

/-! ## Runs -/

/-- After any calls on live blocks whose requests are below 2^32 - 16, `avail` is a
    multiple of 16 up to 4096, what came from the pool is aligned, large enough, in
    the pool and pairwise apart, and `free` has got the blocks of `malloc` that were
    released, no others. -/
theorem pool_disjoint (L : Layout) (memory : Nat → UInt8) {calls : List Call} {s : Arena} {outs : List Nat}
    (hrequests : ∀ call ∈ calls, call.request < 2 ^ 32 - 16)
    (hrun : run (step L) (start memory) calls = .ok (s, outs)) :
    (ALIGNMENT ∣ s.avail ∧ s.avail ≤ SPACE) ∧
      (∀ b ∈ s.served, ALIGNMENT ∣ b.address ∧ b.range.Within L.pool ∧ b.n ≤ b.range.size) ∧
      Disjoint s.served ∧ s.freed = (s.released.filter fun b => !b.pooled).map Lease.address := by
  have hsound : Sound L s := run_keeps_of_mem (Sound L)
    (fun s call s' out hsound hrequest hstep => hsound.step hrequest hstep) (sound_start L memory) hrequests hrun
  refine ⟨⟨hsound.aligned, hsound.bounded⟩, fun b hb => ?_, hsound.disjoint, hsound.freed⟩
  have hserved := hsound.served b hb
  exact ⟨hserved.aligned, hserved.within, Nat.le_of_lt hserved.room⟩

def low_layout : Layout := { space := 4096, aligned := by decide, nonnull := by decide, fits := by decide }

/-- Blocks of the pool and of `malloc`, one of them reallocated. -/
def mixed_calls : List Call :=
  [.alloc 30 0, .alloc 5000 65536, .alloc_re 8160 30 100 0, .alloc_free 65536]

theorem pool_disjoint_mixed_calls :
    ∃ s outs, run (step low_layout) (start fun _ => 0) mixed_calls = .ok (s, outs) ∧ s.freed = [65536] ∧
      s.avail = 3952 ∧ ALIGNMENT ∣ s.avail ∧ Disjoint s.served := by
  obtain ⟨s, outs, hrun, hview⟩ := run_of_view (fun s : Arena => (s.freed, s.avail))
    (by decide +kernel : (run (step low_layout) (start fun _ => 0) mixed_calls).toOption.map
      (fun r => (r.1.freed, r.1.avail)) = some ([65536], 3952))
  obtain ⟨hfreed, havail⟩ := Prod.mk.inj hview
  obtain ⟨⟨haligned, _⟩, _, hdisjoint, _⟩ := pool_disjoint low_layout (fun _ => 0)
    (by decide : ∀ call ∈ mixed_calls, call.request < 2 ^ 32 - 16) hrun
  exact ⟨s, outs, hrun, hfreed, havail, haligned, hdisjoint⟩

/-! ## Blocks by origin -/

/-- The address of a block. -/
def Denotes (L : Layout) (x : Nat) : Origin → Prop
  | .space offset => x = L.space + offset ∧ offset < SPACE
  | .malloc => x < L.space ∨ L.space + SPACE ≤ x

/-- `_alloc` on blocks with an origin is `_alloc` on addresses. -/
theorem _alloc_denotes (L : Layout) {pool pool' : Pool} (havail : pool.avail ≤ SPACE) {n malloc : Nat}
    (hn : n < 2 ^ 32 - 16) (houtside : Denotes L malloc .malloc) {alloc : Allocation} {block : Block}
    (halloc : stralloc._alloc pool n alloc = (pool', some block)) :
    (_alloc L pool.avail n malloc).1 = pool'.avail ∧ Denotes L (_alloc L pool.avail n malloc).2 block.origin := by
  have hroom := rounded_of_lt hn
  unfold stralloc._alloc at halloc
  change (if rounded n ≤ pool.avail then _ else _) = _ at halloc
  by_cases hfits : rounded n ≤ pool.avail
  · rw [if_pos hfits] at halloc
    cases halloc
    have hoffset : pool.avail - rounded n < SPACE := by omega
    rw [_alloc_of_fits hfits]
    exact ⟨rfl, rfl, hoffset⟩
  · rw [if_neg hfits] at halloc
    split at halloc
    case isTrue =>
      cases halloc
      rw [_alloc_of_full hfits]
      exact ⟨rfl, houtside⟩
    case isFalse => cases halloc

/-- The test by address and the test by origin agree. -/
theorem _alloc_free_denotes {L : Layout} {x : Nat} {block : Block} (hdenotes : Denotes L x block.origin)
    (pool : Pool) (freed : List Nat) :
    _alloc_free L freed x = freed ∧ (stralloc._alloc_free pool block).freed = pool.freed ∨
      _alloc_free L freed x = freed ++ [x] ∧
        (stralloc._alloc_free pool block).freed = pool.freed ++ [block] := by
  unfold stralloc._alloc_free _alloc_free
  cases horigin : block.origin with
  | space offset =>
    rw [horigin] at hdenotes
    obtain ⟨rfl, hoffset⟩ := hdenotes
    refine Or.inl ⟨?_, ?_⟩
    · rw [if_pos (by omega), if_pos (by omega)]
    · simp [hoffset]
  | malloc =>
    rw [horigin] at hdenotes
    refine Or.inr ⟨?_, rfl⟩
    obtain hbelow | habove := hdenotes
    · rw [if_neg (by omega)]
    · rw [if_pos (by omega), if_neg (by omega)]

end code_tools.stralloc.addresses

import CodeTools.Lib.Machine
import Mathlib.Algebra.Group.Int.Defs
import Mathlib.Algebra.Group.Nat.Defs

/-!
# Setting and getting in `ctapi_mc.c`

The client library is a parameter with the state of the servers behind it. Its
handle is taken to be non-`NULL`, and what is logged is left out.
-/

namespace code_tools.ctapi_mc

/-- The codes that the functions tell apart. -/
inductive MemcachedReturn where
  | MEMCACHED_SUCCESS
  | MEMCACHED_NOTFOUND
  | MEMCACHED_CONNECTION_FAILURE
  | other (number : Nat)
deriving DecidableEq, Repr

/-- A NUL-terminated string and what lies in memory behind it. Its length is a
    `size_t`. -/
structure Text where
  bytes : List UInt8
  behind : List UInt8
  no_nul : 0 ∉ bytes
  fits : bytes.length < 2 ^ 64

/-- The memory from the first byte on. -/
def Text.memory (text : Text) : List UInt8 := text.bytes ++ 0 :: text.behind

def strlen (text : Text) : Nat := text.bytes.length

/-- The address of a server. -/
abbrev Server := List UInt8 × Int

/-- A handle with the one server that is pushed to it. -/
structure Memc where
  connect_timeout : Int
  server : Server
deriving DecidableEq, Repr

/-- The calls of libmemcached. Keys and values are memory with a length. -/
structure Libmemcached (σ : Type) where
  memcached_server_list_append : Server → MemcachedReturn
  memcached_server_push : Memc → MemcachedReturn
  memcached_set : σ → Memc → (key : List UInt8) → (key_length : Nat) → (value : List UInt8) →
    (value_length : Nat) → (expiration : Int) → (flags : Nat) → σ × MemcachedReturn
  /-- The bytes of the result come with a terminator of their own. -/
  memcached_get : σ → Memc → (key : List UInt8) → (key_length : Nat) → Option (List UInt8) × MemcachedReturn

/-- A `size_t` stored in a `char`, which is signed. -/
def char_of_size_t (v : Nat) : Int := ((v : Int) + 2 ^ 7) % 2 ^ 8 - 2 ^ 7

/-- A `char` passed as a `size_t`. -/
def size_t_of_char (c : Int) : Nat := (c % 2 ^ 64).toNat

/-- `mc_value_len` as `memcached_set` gets it. -/
def mc_value_len (mc_value : Text) : Nat := size_t_of_char (char_of_size_t (strlen mc_value))

/-- The return value, the servers afterwards and the lengths handed to
    `memcached_set`. -/
structure Set (σ : Type) where
  ret : Int
  servers : σ
  handed : List Nat

variable {σ : Type}

def set_mc (lib : Libmemcached σ) (servers : σ) (mc_ip : List UInt8) (mc_port mc_timeout : Int)
    (mc_key mc_value : Text) (expiration : Int) : Set σ :=
  if lib.memcached_server_list_append (mc_ip, mc_port) = .MEMCACHED_SUCCESS then
    let memc := { connect_timeout := mc_timeout, server := (mc_ip, mc_port) }
    if lib.memcached_server_push memc = .MEMCACHED_SUCCESS then
      let (servers, mrc) := lib.memcached_set servers memc mc_key.memory (strlen mc_key) mc_value.memory
        (mc_value_len mc_value) expiration 0
      let ret := match mrc with
        | .MEMCACHED_SUCCESS => 0
        | .MEMCACHED_NOTFOUND => 1
        | .MEMCACHED_CONNECTION_FAILURE => 2
        | .other _ => 3
      { ret := ret, servers := servers, handed := [mc_value_len mc_value] }
    else { ret := 3, servers := servers, handed := [] }
  else { ret := 3, servers := servers, handed := [] }

/-- The result, `none` for `NULL`, and what is stored through `ret`. -/
def get_mc (lib : Libmemcached σ) (servers : σ) (mc_ip : List UInt8) (mc_port mc_timeout : Int)
    (mc_key : Text) : Option (List UInt8) × Int :=
  if lib.memcached_server_list_append (mc_ip, mc_port) = .MEMCACHED_SUCCESS then
    let memc := { connect_timeout := mc_timeout, server := (mc_ip, mc_port) }
    if lib.memcached_server_push memc = .MEMCACHED_SUCCESS then
      let (result, mrc) := lib.memcached_get servers memc mc_key.memory (strlen mc_key)
      let ret := match mrc with
        | .MEMCACHED_SUCCESS => 0
        | .MEMCACHED_NOTFOUND => 1
        | .MEMCACHED_CONNECTION_FAILURE => 2
        | .other _ => 3
      (result, ret)
    else (none, 2)
  else (none, 2)

/-! ## The length of a value -/

/-- The length survives the `char` below 128, and where it comes back through the
    sign. -/
theorem mc_value_len_eq_iff (mc_value : Text) :
    mc_value_len mc_value = strlen mc_value ↔ strlen mc_value ≤ 127 ∨ 2 ^ 64 - 128 ≤ strlen mc_value := by
  have hfits : strlen mc_value < 2 ^ 64 := mc_value.fits
  unfold mc_value_len size_t_of_char char_of_size_t
  omega

/-! ## What is set is got -/

/-- A successful set is of the bytes that are given, as many as it is told, and a
    get of the key from the same server returns them. A push does not look at the
    timeout. -/
structure Libmemcached.StoresExactly (lib : Libmemcached σ) : Prop where
  push : ∀ memc memc' : Memc, memc.server = memc'.server →
    lib.memcached_server_push memc = lib.memcached_server_push memc'
  get_set : ∀ servers servers' (memc memc' : Memc) key key' key_length value value_length expiration flags,
    lib.memcached_set servers memc key key_length value value_length expiration flags =
      (servers', .MEMCACHED_SUCCESS) →
    memc'.server = memc.server → key'.take key_length = key.take key_length →
    value_length ≤ value.length ∧
      lib.memcached_get servers' memc' key' key_length = (some (value.take value_length), .MEMCACHED_SUCCESS)

/-- With any library that stores exactly, any key, server, timeouts and expiration,
    the length that is handed on is that of the value, and a set that returns 0
    is followed by a get of the value. -/
def RoundTrips (mc_value : Text) : Prop :=
  ∀ (σ : Type) (lib : Libmemcached σ), lib.StoresExactly → ∀ (servers : σ) (mc_ip : List UInt8)
    (mc_port mc_timeout mc_timeout' : Int) (mc_key : Text) (expiration : Int),
    (∀ n ∈ (set_mc lib servers mc_ip mc_port mc_timeout mc_key mc_value expiration).handed,
      n = strlen mc_value) ∧
    ((set_mc lib servers mc_ip mc_port mc_timeout mc_key mc_value expiration).ret = 0 →
      get_mc lib (set_mc lib servers mc_ip mc_port mc_timeout mc_key mc_value expiration).servers mc_ip mc_port
        mc_timeout' mc_key = (some mc_value.bytes, 0))

theorem take_memory (text : Text) : text.memory.take (strlen text) = text.bytes := by
  unfold Text.memory strlen
  exact List.take_left' rfl

/-- A set that returns 0 was connected and successful. -/
theorem set_mc_eq_zero {lib : Libmemcached σ} {servers : σ} {mc_ip : List UInt8} {mc_port mc_timeout : Int}
    {mc_key mc_value : Text} {expiration : Int}
    (hret : (set_mc lib servers mc_ip mc_port mc_timeout mc_key mc_value expiration).ret = 0) :
    lib.memcached_server_list_append (mc_ip, mc_port) = .MEMCACHED_SUCCESS ∧
      lib.memcached_server_push { connect_timeout := mc_timeout, server := (mc_ip, mc_port) } =
        .MEMCACHED_SUCCESS ∧
      lib.memcached_set servers { connect_timeout := mc_timeout, server := (mc_ip, mc_port) } mc_key.memory
          (strlen mc_key) mc_value.memory (mc_value_len mc_value) expiration 0 =
        ((set_mc lib servers mc_ip mc_port mc_timeout mc_key mc_value expiration).servers,
          .MEMCACHED_SUCCESS) := by
  unfold set_mc at hret ⊢
  by_cases happend : lib.memcached_server_list_append (mc_ip, mc_port) = .MEMCACHED_SUCCESS
  · by_cases hpush : lib.memcached_server_push { connect_timeout := mc_timeout, server := (mc_ip, mc_port) } =
        .MEMCACHED_SUCCESS
    · simp only [happend, hpush, if_true] at hret ⊢
      refine ⟨trivial, trivial, Prod.ext rfl ?_⟩
      split at hret
      · assumption
      · cases hret
      · cases hret
      · cases hret
    · simp [happend, hpush] at hret
  · simp [happend] at hret

/-- A length that is handed on is `mc_value_len`. -/
theorem eq_of_mem_handed {lib : Libmemcached σ} {servers : σ} {mc_ip : List UInt8} {mc_port mc_timeout : Int}
    {mc_key mc_value : Text} {expiration : Int} {n : Nat}
    (hn : n ∈ (set_mc lib servers mc_ip mc_port mc_timeout mc_key mc_value expiration).handed) :
    n = mc_value_len mc_value := by
  unfold set_mc at hn
  split at hn
  · dsimp only at hn
    split at hn
    · simpa using hn
    · simp at hn
  · simp at hn

theorem roundTrips_of_len {mc_value : Text} (hlen : mc_value_len mc_value = strlen mc_value) :
    RoundTrips mc_value := by
  intro σ lib hlib servers mc_ip mc_port mc_timeout mc_timeout' mc_key expiration
  refine ⟨fun n hn => (eq_of_mem_handed hn).trans hlen, fun hret => ?_⟩
  obtain ⟨happend, hpush, hset⟩ := set_mc_eq_zero hret
  rw [hlen] at hset
  obtain ⟨_, hget⟩ := hlib.get_set _ _ _ { connect_timeout := mc_timeout', server := (mc_ip, mc_port) } _ _ _ _ _
    _ _ hset rfl rfl
  rw [take_memory] at hget
  have hpush' := (hlib.push { connect_timeout := mc_timeout', server := (mc_ip, mc_port) }
    { connect_timeout := mc_timeout, server := (mc_ip, mc_port) } rfl).trans hpush
  unfold get_mc
  simp only [happend, hpush', hget, if_true]

/-! ## A library with a map for every server -/

abbrev Maps := Server → List UInt8 → Option (List UInt8)

/-- Values of any length that is there to be read are stored. -/
def plain : Libmemcached Maps where
  memcached_server_list_append := fun _ => .MEMCACHED_SUCCESS
  memcached_server_push := fun _ => .MEMCACHED_SUCCESS
  memcached_set := fun maps memc key key_length value value_length _ _ =>
    if value_length ≤ value.length then
      (fun server k =>
        if server = memc.server ∧ k = key.take key_length then some (value.take value_length) else maps server k,
        .MEMCACHED_SUCCESS)
    else (maps, .other 0)
  memcached_get := fun maps memc key key_length =>
    match maps memc.server (key.take key_length) with
    | some value => (some value, .MEMCACHED_SUCCESS)
    | none => (none, .MEMCACHED_NOTFOUND)

theorem plain_storesExactly : plain.StoresExactly := by
  refine ⟨fun _ _ _ => rfl, ?_⟩
  intro maps maps' memc memc' key key' key_length value value_length expiration flags hset hserver hkey
  unfold plain at hset ⊢
  dsimp only at hset ⊢
  split at hset
  · rename_i hle
    obtain ⟨rfl, _⟩ := Prod.mk.inj hset
    dsimp only
    rw [hserver, hkey, if_pos ⟨rfl, rfl⟩]
    exact ⟨hle, rfl⟩
  · cases (Prod.mk.inj hset).2

theorem len_of_roundTrips {mc_value : Text} (hround : RoundTrips mc_value) :
    mc_value_len mc_value = strlen mc_value :=
  (hround Maps plain plain_storesExactly (fun _ _ => none) [] 0 0 0 mc_value 0).1 _ List.mem_cons_self

/-- For every value of any length: it makes the round trip, for every key and
    every library that stores exactly, if and only if its length fits in the
    `char` that it is kept in. -/
theorem set_get_iff (mc_value : Text) :
    RoundTrips mc_value ↔ strlen mc_value ≤ 127 ∨ 2 ^ 64 - 128 ≤ strlen mc_value :=
  ⟨fun hround => (mc_value_len_eq_iff mc_value).mp (len_of_roundTrips hround),
    fun hlen => roundTrips_of_len ((mc_value_len_eq_iff mc_value).mpr hlen)⟩

/-- 300 letters. -/
def long_value : Text :=
  { bytes := List.replicate 300 97, behind := [], no_nul := fun h => absurd (List.eq_of_mem_replicate h) (by decide),
    fits := by rw [List.length_replicate]; decide }

def name_key : Text :=
  { bytes := [110, 97, 109, 101], behind := [], no_nul := by decide, fits := by decide }

/-- Of 300 letters 44 are set, with success, and got back. -/
theorem long_value_cut :
    (set_mc plain (fun _ _ => none) [49] 11211 0 name_key long_value 0).ret = 0 ∧
      get_mc plain (set_mc plain (fun _ _ => none) [49] 11211 0 name_key long_value 0).servers [49] 11211 0
        name_key = (some (List.replicate 44 97), 0) ∧
      ¬RoundTrips long_value := by
  refine ⟨by decide +kernel, by decide +kernel, fun hround => ?_⟩
  have hlen := (mc_value_len_eq_iff long_value).mp (len_of_roundTrips hround)
  have hstrlen : strlen long_value = 300 := List.length_replicate
  omega

end code_tools.ctapi_mc

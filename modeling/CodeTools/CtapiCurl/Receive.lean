import CodeTools.Lib.Buffer
import CodeTools.Lib.Machine

/-!
# The receive buffers: `ctapi_curl.c`

libcurl hands the headers and the body of a response over in chunks. Two callbacks
that differ in nothing but their buffer append them.
-/

namespace code_tools.ctapi_curl

open cmem machine

/-! ## Memory -/

/-- What `str` points to. -/
inductive Str where
  | null
  | block (bytes : List UInt8)
  | freed
deriving DecidableEq, Repr

structure Pstr where
  str : Str
  len : UInt64
  size : UInt64
deriving DecidableEq, Repr

def Pstr.zero : Pstr := { str := .null, len := 0, size := 0 }

/-- Whether `calloc` and `realloc` find memory in a call, and what new memory
    happens to hold. -/
structure Allocation where
  calloc : Bool
  realloc : Bool
  junk : Nat → UInt8

/-- The bytes that a block keeps when it is made `n` bytes long. -/
def resized (bytes : List UInt8) (n : Nat) (junk : Nat → UInt8) : List UInt8 :=
  bytes.take n ++ (List.range (n - bytes.length)).map junk

/-! ## The callbacks -/

def BUF_SIZE : Nat := 10

/-- A buffer without a block gets one; `none` is a memory error. -/
def started (mem : Allocation) (p : Pstr) : Option Pstr :=
  if p.str = .null then
    if mem.calloc then some { str := .block (List.replicate BUF_SIZE 0), len := 0, size := UInt64.ofNat BUF_SIZE }
    else none
  else some p

/-- The new size goes through an `unsigned int`. -/
def new_size (p : Pstr) (n : UInt64) : UInt32 := (p.size * 2 + n + 1).toUInt32

/-- `realloc` when the chunk does not fit; the result is false for a memory error.
    With a size of zero `realloc` frees the block and returns `NULL`. -/
def grow (mem : Allocation) (n : UInt64) (p : Pstr) : Except Fault (Pstr × Bool) :=
  if p.size - p.len < n + 1 then
    match p.str with
    | .freed => .error .danglingPointer
    | .null => .error .nullPointer
    | .block bytes =>
      if new_size p n = 0 then .ok ({ p with str := .freed }, false)
      else if mem.realloc then
        .ok ({ p with str := .block (resized bytes (new_size p n).toNat mem.junk), size := (new_size p n).toUInt64 },
          true)
      else .ok (p, false)
  else .ok (p, true)

/-- `memcpy` behind what is there, and the terminator. -/
def store (buffer : List UInt8) (n : UInt64) (p : Pstr) : Except Fault Pstr :=
  match p.str with
  | .freed => .error .danglingPointer
  | .null => .error .nullPointer
  | .block bytes => do
    let src ← slice buffer 0 n.toNat
    let bytes ← blit bytes p.len.toNat src
    let bytes ← blit bytes (p.len + n).toNat [0]
    .ok { p with str := .block bytes, len := p.len + n }

/-- What a call returns, and whether it has printed that there is no memory. -/
structure Output where
  ret : UInt64
  memory_error : Bool
deriving DecidableEq, Repr

/-- What libcurl hands over. -/
structure Chunk where
  buffer : List UInt8
  size : UInt64
  nmemb : UInt64
  length : buffer.length = (size * nmemb).toNat

/-- Both callbacks. -/
def recive (mem : Allocation) (chunk : Chunk) (p : Pstr) : Except Fault (Pstr × Output) :=
  match started mem p with
  | none => .ok (p, { ret := 0, memory_error := true })
  | some p => do
    let (p, found) ← grow mem (chunk.size * chunk.nmemb) p
    if found then
      let p ← store chunk.buffer (chunk.size * chunk.nmemb) p
      .ok (p, { ret := chunk.size * chunk.nmemb, memory_error := false })
    else .ok (p, { ret := 0, memory_error := true })

structure CurlResultString where
  headers : Pstr
  data : Pstr

/-- After the `memset`. -/
def CurlResultString.zero : CurlResultString := { headers := Pstr.zero, data := Pstr.zero }

def recive_header_from_http_api (mem : Allocation) (chunk : Chunk) (r : CurlResultString) :
    Except Fault (CurlResultString × Output) := do
  let (headers, out) ← recive mem chunk r.headers
  .ok ({ r with headers }, out)

def recive_data_from_http_api (mem : Allocation) (chunk : Chunk) (r : CurlResultString) :
    Except Fault (CurlResultString × Output) := do
  let (data, out) ← recive mem chunk r.data
  .ok ({ r with data }, out)

/-! ## Transfers -/

inductive Part where
  | header
  | data
deriving DecidableEq, Repr

/-- A callback that libcurl makes. -/
structure Event where
  part : Part
  chunk : Chunk
  mem : Allocation

/-- The bytes of the chunk, as the callbacks count them. -/
def Event.n (e : Event) : UInt64 := e.chunk.size * e.chunk.nmemb

def callback (r : CurlResultString) (e : Event) : Except Fault (CurlResultString × Output) :=
  match e.part with
  | .header => recive_header_from_http_api e.mem e.chunk r
  | .data => recive_data_from_http_api e.mem e.chunk r

def CurlResultString.get (r : CurlResultString) : Part → Pstr
  | .header => r.headers
  | .data => r.data

/-! ## What a call can do -/

theorem started_cases {mem : Allocation} {p p' : Pstr} (hstarted : started mem p = some p') :
    (p.str = .null ∧ p' = { str := .block (List.replicate BUF_SIZE 0), len := 0, size := UInt64.ofNat BUF_SIZE }) ∨
      (p.str ≠ .null ∧ p' = p) := by
  unfold started at hstarted
  split at hstarted
  case isTrue hnull =>
    split at hstarted
    case isTrue => exact .inl ⟨hnull, (Option.some.inj hstarted).symm⟩
    case isFalse => cases hstarted
  case isFalse hstr => exact .inr ⟨hstr, (Option.some.inj hstarted).symm⟩

theorem grow_cases {mem : Allocation} {n : UInt64} {p p' : Pstr} {found : Bool}
    (hgrow : grow mem n p = .ok (p', found)) :
    p' = p ∨ p' = { p with str := .freed } ∨ ∃ bytes, p' = { p with
      str := .block (resized bytes (new_size p n).toNat mem.junk), size := (new_size p n).toUInt64 } := by
  unfold grow at hgrow
  split at hgrow
  case isFalse => exact .inl (Prod.mk.inj (Except.ok.inj hgrow)).1.symm
  case isTrue =>
  split at hgrow
  case h_1 => cases hgrow
  case h_2 => cases hgrow
  case h_3 bytes _ =>
  split at hgrow
  case isTrue => exact .inr (.inl (Prod.mk.inj (Except.ok.inj hgrow)).1.symm)
  case isFalse =>
  split at hgrow
  case isTrue => exact .inr (.inr ⟨bytes, (Prod.mk.inj (Except.ok.inj hgrow)).1.symm⟩)
  case isFalse => exact .inl (Prod.mk.inj (Except.ok.inj hgrow)).1.symm

/-- A chunk that was stored has its terminator inside the block. -/
theorem store_cases {buffer : List UInt8} {n : UInt64} {p p' : Pstr} (hstore : store buffer n p = .ok p') :
    ∃ bytes bytes', p.str = .block bytes ∧ p' = { p with str := .block bytes', len := p.len + n } ∧
      bytes'.length = bytes.length ∧ (p.len + n).toNat < bytes.length := by
  unfold store at hstore
  split at hstore
  case h_1 => cases hstore
  case h_2 => cases hstore
  case h_3 bytes hstr =>
  obtain ⟨src, _, hstore⟩ := bind_eq_ok_iff.mp hstore
  obtain ⟨bytes₁, hfirst, hstore⟩ := bind_eq_ok_iff.mp hstore
  obtain ⟨bytes₂, hsecond, hstore⟩ := bind_eq_ok_iff.mp hstore
  have hlength := length_of_blit hfirst
  obtain ⟨hinside, _⟩ := blit_eq_ok_iff.mp hsecond
  rw [List.length_singleton, hlength] at hinside
  exact ⟨bytes, bytes₂, hstr, (Except.ok.inj hstore).symm, (length_of_blit hsecond).trans hlength, hinside⟩

/-- A call stores the chunk and returns its size, or has a memory error. -/
theorem recive_cases {mem : Allocation} {chunk : Chunk} {p p' : Pstr} {out : Output}
    (hrecive : recive mem chunk p = .ok (p', out)) :
    (p' = p ∧ out = { ret := 0, memory_error := true }) ∨
      ∃ p₁ p₂ found, started mem p = some p₁ ∧ grow mem (chunk.size * chunk.nmemb) p₁ = .ok (p₂, found) ∧
        ((found = false ∧ p' = p₂ ∧ out = { ret := 0, memory_error := true }) ∨
          (found = true ∧ store chunk.buffer (chunk.size * chunk.nmemb) p₂ = .ok p' ∧
            out = { ret := chunk.size * chunk.nmemb, memory_error := false })) := by
  unfold recive at hrecive
  cases hstarted : started mem p with
  | none =>
    rw [hstarted] at hrecive
    obtain ⟨rfl, rfl⟩ := Prod.mk.inj (Except.ok.inj hrecive)
    exact .inl ⟨rfl, rfl⟩
  | some p₁ =>
    rw [hstarted] at hrecive
    obtain ⟨⟨p₂, found⟩, hgrow, hrest⟩ := bind_eq_ok_iff.mp hrecive
    refine .inr ⟨p₁, p₂, found, rfl, hgrow, ?_⟩
    cases found with
    | false =>
      obtain ⟨rfl, rfl⟩ := Prod.mk.inj (Except.ok.inj hrest)
      exact .inl ⟨rfl, rfl, rfl⟩
    | true =>
      obtain ⟨p₃, hstore, hresult⟩ := bind_eq_ok_iff.mp hrest
      obtain ⟨rfl, rfl⟩ := Prod.mk.inj (Except.ok.inj hresult)
      exact .inr ⟨rfl, hstore, rfl⟩

/-- A callback changes the buffer of its part. -/
theorem callback_cases {r r' : CurlResultString} {e : Event} {out : Output} (hcall : callback r e = .ok (r', out)) :
    recive e.mem e.chunk (r.get e.part) = .ok (r'.get e.part, out) ∧
      ∀ part, part ≠ e.part → r'.get part = r.get part := by
  unfold callback at hcall
  cases hpart : e.part with
  | header =>
    rw [hpart] at hcall
    obtain ⟨⟨headers, out'⟩, hrecive, hresult⟩ := bind_eq_ok_iff.mp hcall
    obtain ⟨rfl, rfl⟩ := Prod.mk.inj (Except.ok.inj hresult)
    refine ⟨hrecive, fun part hother => ?_⟩
    cases part with
    | header => exact absurd rfl hother
    | data => rfl
  | data =>
    rw [hpart] at hcall
    obtain ⟨⟨data, out'⟩, hrecive, hresult⟩ := bind_eq_ok_iff.mp hcall
    obtain ⟨rfl, rfl⟩ := Prod.mk.inj (Except.ok.inj hresult)
    refine ⟨hrecive, fun part hother => ?_⟩
    cases part with
    | header => rfl
    | data => exact absurd rfl hother

/-! ## What a buffer describes -/

/-- A block with a string and the room that `size` claims. -/
structure Keeps (bytes : List UInt8) (p : Pstr) (content : List UInt8) : Prop where
  string : bytes.take (p.len.toNat + 1) = content ++ [0]
  length : p.len.toNat = content.length
  inside : p.len.toNat < p.size.toNat
  allocated : p.size.toNat ≤ bytes.length

/-- The chunks that a buffer was given, one behind the other. -/
inductive Describes : Pstr → List (List UInt8) → Prop
  | null : Describes Pstr.zero []
  | block {p : Pstr} {bytes : List UInt8} {chunks : List (List UInt8)} (hstr : p.str = .block bytes)
      (hkeeps : Keeps bytes p chunks.flatten) : Describes p chunks

theorem length_resized (bytes : List UInt8) (n : Nat) (junk : Nat → UInt8) : (resized bytes n junk).length = n := by
  rw [resized, List.length_append, List.length_take, List.length_map, List.length_range]
  omega

theorem take_resized {bytes : List UInt8} {n k : Nat} (hk : k ≤ n) (hbytes : k ≤ bytes.length)
    (junk : Nat → UInt8) : (resized bytes n junk).take k = bytes.take k := by
  have hlength : (bytes.take n).length = min n bytes.length := List.length_take
  rw [resized, List.take_append_of_le_length (by omega), List.take_take, Nat.min_eq_left hk]

/-- A block that is made longer keeps the string. -/
theorem Keeps.resized {bytes content : List UInt8} {p : Pstr} (h : Keeps bytes p content) {size : UInt32}
    (hsize : p.len.toNat < size.toNat) (junk : Nat → UInt8) :
    Keeps (resized bytes size.toNat junk)
      { p with str := .block (ctapi_curl.resized bytes size.toNat junk), size := size.toUInt64 } content := by
  have hinside := h.inside
  have hallocated := h.allocated
  refine ⟨?_, h.length, ?_, ?_⟩
  · dsimp only
    rw [take_resized (by omega) (by omega)]
    exact h.string
  · dsimp only
    rwa [UInt32.toNat_toUInt64]
  · dsimp only
    exact Nat.le_of_eq (by rw [UInt32.toNat_toUInt64, length_resized])

/-- A chunk that fits goes behind the string. -/
theorem store_spec {bytes content buffer : List UInt8} {p : Pstr} (hstr : p.str = .block bytes)
    (h : Keeps bytes p content) {n : UInt64} (hlength : buffer.length = n.toNat)
    (hroom : p.len.toNat + n.toNat < p.size.toNat) :
    ∃ p' bytes', store buffer n p = .ok p' ∧ p'.str = .block bytes' ∧ Keeps bytes' p' (content ++ buffer) := by
  have hsize := p.size.toNat_lt
  have hallocated := h.allocated
  have hlen : (p.len + n).toNat = p.len.toNat + buffer.length := by
    rw [UInt64.toNat_add, hlength]
    exact Nat.mod_eq_of_lt (by omega)
  have hsrc : slice buffer 0 n.toNat = .ok buffer := by
    rw [slice_eq (by omega), List.drop_zero, ← hlength, List.take_length]
  obtain ⟨bytes₁, bytes₂, hfirst, hsecond, hlength₂, htake, hzero⟩ :=
    blit_concat 0 (by omega : p.len.toNat + buffer.length < bytes.length)
  have hcontent : bytes.take p.len.toNat = content := by
    have hcut := congrArg (List.take p.len.toNat) h.string
    rwa [List.take_take, Nat.min_eq_left (Nat.le_succ _), h.length, List.take_left, ← h.length] at hcut
  refine ⟨{ p with str := .block bytes₂, len := p.len + n }, bytes₂, ?_, rfl, ?_, ?_, ?_, ?_⟩
  · unfold store
    rw [hstr]
    dsimp only
    rw [hsrc, ok_bind, hfirst, ok_bind, hlen, hsecond, ok_bind]
  · dsimp only
    rw [hlen, List.take_add_one, htake, hzero, hcontent]
    rfl
  · dsimp only
    rw [hlen, List.length_append, h.length]
  · dsimp only
    rw [hlen, hlength]
    exact hroom
  · dsimp only
    rw [hlength₂]
    exact hallocated

/-! ## One call -/

/-- There is room for the chunk and the terminator, or `realloc` is asked for enough
    of it, or for something that it does not have. -/
def Fits (mem : Allocation) (n : UInt64) (p : Pstr) : Prop :=
  n.toNat + 1 < 2 ^ 64 ∧ (p.len.toNat + n.toNat < p.size.toNat ∨
    new_size p n ≠ 0 ∧ (mem.realloc = true → p.len.toNat + n.toNat < (new_size p n).toNat))

instance (mem : Allocation) (n : UInt64) (p : Pstr) : Decidable (Fits mem n p) :=
  inferInstanceAs (Decidable (_ ∧ (_ ∨ _ ∧ (_ → _))))

/-- The test in the callbacks. -/
theorem short_iff {p : Pstr} {n : UInt64} (hinside : p.len.toNat < p.size.toNat) (hn : n.toNat + 1 < 2 ^ 64) :
    p.size - p.len < n + 1 ↔ p.size.toNat ≤ p.len.toNat + n.toNat := by
  have hsize := p.size.toNat_lt
  have hroom : (p.size - p.len).toNat = p.size.toNat - p.len.toNat :=
    UInt64.toNat_sub_of_le _ _ (UInt64.le_iff_toNat_le.mpr (Nat.le_of_lt hinside))
  have hneed : (n + 1).toNat = n.toNat + 1 := by
    rw [UInt64.toNat_add]
    exact Nat.mod_eq_of_lt hn
  rw [UInt64.lt_iff_toNat_lt, hroom, hneed]
  omega

theorem grow_spec {bytes content : List UInt8} {p : Pstr} (hstr : p.str = .block bytes) (h : Keeps bytes p content)
    {mem : Allocation} {n : UInt64} (hfits : Fits mem n p) :
    ∃ p' bytes' found, grow mem n p = .ok (p', found) ∧ p'.str = .block bytes' ∧ Keeps bytes' p' content ∧
      (found = true → p'.len.toNat + n.toNat < p'.size.toNat) := by
  obtain ⟨hn, hfits⟩ := hfits
  unfold grow
  by_cases hshort : p.size - p.len < n + 1
  · rw [if_pos hshort, hstr]
    dsimp only
    rw [short_iff h.inside hn] at hshort
    obtain ⟨hnonzero, hlarger⟩ := hfits.resolve_left (by omega)
    rw [if_neg hnonzero]
    by_cases hmem : mem.realloc = true
    · rw [if_pos hmem]
      have hroom := hlarger hmem
      refine ⟨_, _, true, rfl, rfl, h.resized (by omega) mem.junk, fun _ => ?_⟩
      dsimp only
      rwa [UInt32.toNat_toUInt64]
    · rw [if_neg hmem]
      exact ⟨p, bytes, false, rfl, hstr, h, nofun⟩
  · rw [if_neg hshort]
    rw [short_iff h.inside hn] at hshort
    exact ⟨p, bytes, true, rfl, hstr, h, fun _ => by omega⟩

theorem started_spec {p p' : Pstr} {chunks : List (List UInt8)} {mem : Allocation} (h : Describes p chunks)
    (hstarted : started mem p = some p') : ∃ bytes, p'.str = .block bytes ∧ Keeps bytes p' chunks.flatten := by
  obtain ⟨hnull, rfl⟩ | ⟨hstr, rfl⟩ := started_cases hstarted
  · cases h with
    | null => exact ⟨_, rfl, rfl, rfl, by decide, by decide⟩
    | block hblock hkeeps =>
      rw [hblock] at hnull
      cases hnull
  · cases h with
    | null => exact absurd rfl hstr
    | block hblock hkeeps => exact ⟨_, hblock, hkeeps⟩

/-- What a call makes of the chunks before it. -/
def Output.after (out : Output) (chunks : List (List UInt8)) (chunk : Chunk) : List (List UInt8) :=
  if out.ret = chunk.size * chunk.nmemb ∧ out.memory_error = false then chunks ++ [chunk.buffer] else chunks

theorem recive_spec {p : Pstr} {chunks : List (List UInt8)} (h : Describes p chunks) {mem : Allocation} {chunk : Chunk}
    (hfits : ∀ p', started mem p = some p' → Fits mem (chunk.size * chunk.nmemb) p') :
    ∃ p' out, recive mem chunk p = .ok (p', out) ∧ Describes p' (out.after chunks chunk) := by
  unfold recive
  cases hstarted : started mem p with
  | none => exact ⟨p, _, rfl, by rw [Output.after, if_neg (by simp)]; exact h⟩
  | some p₁ =>
    obtain ⟨bytes₁, hstr₁, hkeeps₁⟩ := started_spec h hstarted
    obtain ⟨p₂, bytes₂, found, hgrow, hstr₂, hkeeps₂, hroom⟩ := grow_spec hstr₁ hkeeps₁ (hfits p₁ hstarted)
    dsimp only
    rw [hgrow, ok_bind]
    cases found with
    | false => exact ⟨p₂, _, rfl, by rw [Output.after, if_neg (by simp)]; exact .block hstr₂ hkeeps₂⟩
    | true =>
      obtain ⟨p₃, bytes₃, hstore, hstr₃, hkeeps₃⟩ := store_spec hstr₂ hkeeps₂ chunk.length (hroom rfl)
      dsimp only
      rw [if_pos rfl, hstore, ok_bind]
      refine ⟨p₃, _, rfl, ?_⟩
      rw [Output.after, if_pos ⟨rfl, rfl⟩]
      refine .block hstr₃ ?_
      rwa [List.flatten_append, List.flatten_singleton]

/-! ## Runs -/

/-- The chunk of the event fits the buffer that it goes to, once that has a block. -/
def Safe (r : CurlResultString) (e : Event) : Prop := ∀ p ∈ started e.mem (r.get e.part), Fits e.mem e.n p

instance (r : CurlResultString) (e : Event) : Decidable (Safe r e) :=
  inferInstanceAs (Decidable (∀ p ∈ started e.mem (r.get e.part), Fits e.mem e.n p))

/-- The chunks that were accepted for each part. -/
def given (chunks : Part → List (List UInt8)) (e : Event) (out : Output) : Part → List (List UInt8) := fun part =>
  if part = e.part then out.after (chunks part) e.chunk else chunks part

theorem callback_spec {r : CurlResultString} {chunks : Part → List (List UInt8)}
    (h : ∀ part, Describes (r.get part) (chunks part)) {e : Event} (hsafe : Safe r e) :
    ∃ r' out, callback r e = .ok (r', out) ∧ ∀ part, Describes (r'.get part) (given chunks e out part) := by
  obtain ⟨p', out, hrecive, hp'⟩ := recive_spec (h e.part) hsafe
  unfold callback
  cases hpart : e.part with
  | header =>
    rw [hpart] at hrecive hp'
    refine ⟨{ r with headers := p' }, out, ?_, fun part => ?_⟩
    · exact bind_eq_ok_iff.mpr ⟨_, hrecive, rfl⟩
    · rw [given, hpart]
      cases part with
      | header => exact hp'
      | data => exact h .data
  | data =>
    rw [hpart] at hrecive hp'
    refine ⟨{ r with data := p' }, out, ?_, fun part => ?_⟩
    · exact bind_eq_ok_iff.mpr ⟨_, hrecive, rfl⟩
    · rw [given, hpart]
      cases part with
      | header => exact h .header
      | data => exact hp'

/-- In a run whose chunks all fit, in any order of the callbacks and with any
    failures to find memory, each buffer has the chunks that were accepted for it
    in every state that is reached. -/
theorem receive_buffers_describe {events : List Event}
    (hsafe : Guarded callback Safe CurlResultString.zero events) (before after : List Event)
    (hsplit : events = before ++ after) :
    ∃ r outs, run callback CurlResultString.zero before = .ok (r, outs) ∧
      ∀ part, Describes (r.get part) (observed given (fun _ => []) before outs part) := by
  rw [hsplit] at hsafe
  refine run_observed given (fun r chunks => ∀ part, Describes (r.get part) (chunks part))
    (fun r chunks e h hsafe => callback_spec h hsafe) (fun part => ?_) hsafe.append_left
  cases part with
  | header => exact .null
  | data => exact .null

/-- A chunk of single bytes. -/
def bytes_chunk (buffer : List UInt8) (hsmall : buffer.length < 2 ^ 64) : Chunk where
  buffer := buffer
  size := 1
  nmemb := UInt64.ofNat buffer.length
  length := by
    rw [UInt64.one_mul, UInt64.toNat_ofNat']
    exact (Nat.mod_eq_of_lt hsmall).symm

def plenty : Allocation := { calloc := true, realloc := true, junk := fun _ => 7 }

/-- A header, a body that needs a larger block, and one for which there is none. -/
def three_events : List Event :=
  [{ part := .header, chunk := bytes_chunk [1, 2] (by decide), mem := plenty },
    { part := .data, chunk := bytes_chunk (List.replicate 12 3) (by decide), mem := plenty },
    { part := .data, chunk := bytes_chunk (List.replicate 40 4) (by decide), mem := { plenty with realloc := false } }]

theorem receive_buffers_describe_three :
    ∃ r outs, run callback CurlResultString.zero three_events = .ok (r, outs) ∧
      ∀ part, Describes (r.get part) (observed given (fun _ => []) three_events outs part) := by
  have hsafe : Guarded callback Safe CurlResultString.zero three_events := by decide +kernel
  exact receive_buffers_describe hsafe three_events [] (List.append_nil _).symm

/-! ## Large chunks -/

/-- When the new size does not cover the chunk, the call writes behind the block. -/
theorem recive_overrun {p p₁ : Pstr} {bytes : List UInt8} {mem : Allocation} {chunk : Chunk} {n : UInt64}
    (hn : chunk.size * chunk.nmemb = n) (hstarted : started mem p = some p₁) (hstr : p₁.str = .block bytes)
    (hshort : p₁.size - p₁.len < n + 1) (hnonzero : new_size p₁ n ≠ 0) (hmem : mem.realloc = true)
    (hsmall : (new_size p₁ n).toNat ≤ p₁.len.toNat + n.toNat) (htotal : p₁.len.toNat + n.toNat < 2 ^ 64) :
    recive mem chunk p = .error .outOfBounds := by
  have hlength : chunk.buffer.length = n.toNat := by rw [chunk.length, hn]
  have hsrc : slice chunk.buffer 0 n.toNat = .ok chunk.buffer := by
    rw [slice_eq (by omega), List.drop_zero, ← hlength, List.take_length]
  have hlen : (p₁.len + n).toNat = p₁.len.toNat + n.toNat := by
    rw [UInt64.toNat_add]
    exact Nat.mod_eq_of_lt htotal
  have hgrow : grow mem n p₁ = .ok ({ p₁ with
      str := .block (resized bytes (new_size p₁ n).toNat mem.junk), size := (new_size p₁ n).toUInt64 }, true) := by
    unfold grow
    rw [if_pos hshort, hstr]
    dsimp only
    rw [if_neg hnonzero, if_pos hmem]
  have hstore : store chunk.buffer n { p₁ with
      str := .block (resized bytes (new_size p₁ n).toNat mem.junk), size := (new_size p₁ n).toUInt64 } =
        .error .outOfBounds := by
    unfold store
    dsimp only
    rw [hsrc, ok_bind, hlen]
    cases hfirst : blit (resized bytes (new_size p₁ n).toNat mem.junk) p₁.len.toNat chunk.buffer with
    | error fault =>
      unfold blit at hfirst
      split at hfirst
      · cases hfirst
      · obtain rfl := Except.error.inj hfirst
        rfl
    | ok bytes' =>
      have hbytes : bytes'.length = (new_size p₁ n).toNat := (length_of_blit hfirst).trans (length_resized _ _ _)
      rw [ok_bind, blit, if_neg (by rw [List.length_singleton]; omega)]
      rfl
  unfold recive
  rw [hstarted]
  dsimp only
  rw [hn, hgrow, ok_bind]
  dsimp only
  rw [if_pos rfl, hstore]
  rfl

/-- 20 bytes less than 2 ^ 32. -/
def large_event : Event where
  part := .data
  chunk := bytes_chunk (List.replicate (2 ^ 32 - 20) 1) (by rw [List.length_replicate]; decide)
  mem := plenty

theorem large_event_overrun : run callback CurlResultString.zero [large_event] = .error .outOfBounds := by
  have hn : large_event.chunk.size * large_event.chunk.nmemb = UInt64.ofNat (2 ^ 32 - 20) := by
    change 1 * UInt64.ofNat (List.replicate (2 ^ 32 - 20) (1 : UInt8)).length = _
    rw [UInt64.one_mul, List.length_replicate]
  have hrecive : recive plenty large_event.chunk Pstr.zero = .error .outOfBounds :=
    recive_overrun hn (show started plenty Pstr.zero = some _ from rfl) rfl (by decide) (by decide) rfl (by decide)
      (by decide)
  have hcall : callback CurlResultString.zero large_event = .error .outOfBounds := by
    change (recive plenty large_event.chunk Pstr.zero >>= _) = _
    rw [hrecive]
    rfl
  rw [run, hcall]

/-- A block never has 2 ^ 32 bytes, because its size was an `unsigned int`. -/
structure Bounded (p : Pstr) : Prop where
  len : p.len.toNat < 2 ^ 32
  block : ∀ bytes, p.str = .block bytes → bytes.length < 2 ^ 32

theorem recive_bounded {p p' : Pstr} {mem : Allocation} {chunk : Chunk} {out : Output} (h : Bounded p)
    (hrecive : recive mem chunk p = .ok (p', out)) : Bounded p' := by
  obtain ⟨rfl, _⟩ | ⟨p₁, p₂, found, hstarted, hgrow, hend⟩ := recive_cases hrecive
  · exact h
  have h₁ : Bounded p₁ := by
    obtain ⟨_, rfl⟩ | ⟨_, rfl⟩ := started_cases hstarted
    · refine ⟨by decide, fun bytes hstr => ?_⟩
      obtain rfl := Str.block.inj hstr
      decide
    · exact h
  have h₂ : Bounded p₂ := by
    obtain rfl | rfl | ⟨bytes, rfl⟩ := grow_cases hgrow
    · exact h₁
    · exact ⟨h₁.len, nofun⟩
    · refine ⟨h₁.len, fun bytes' hstr => ?_⟩
      obtain rfl := Str.block.inj hstr
      rw [length_resized]
      exact UInt32.toNat_lt _
  obtain ⟨_, rfl, _⟩ | ⟨_, hstore, _⟩ := hend
  · exact h₂
  · obtain ⟨bytes, bytes', hstr, rfl, hlength, hinside⟩ := store_cases hstore
    have hbytes := h₂.block bytes hstr
    refine ⟨Nat.lt_trans hinside hbytes, fun bytes'' hstr' => ?_⟩
    obtain rfl := Str.block.inj hstr'
    rwa [hlength]

/-- However small the chunks of a download are, no buffer gets to 2 ^ 32 bytes. -/
theorem len_lt_of_run {events : List Event} {r : CurlResultString} {outs : List Output}
    (hrun : run callback CurlResultString.zero events = .ok (r, outs)) (part : Part) :
    (r.get part).len.toNat < 2 ^ 32 := by
  have hbounded : ∀ part, Bounded (r.get part) := by
    refine run_invariant (fun r => ∀ part, Bounded (r.get part)) (fun r e r' out h hcall part => ?_)
      (fun part => ?_) hrun
    · obtain ⟨hrecive, hothers⟩ := callback_cases hcall
      by_cases hpart : part = e.part
      · rw [hpart]
        exact recive_bounded (h e.part) hrecive
      · rw [hothers part hpart]
        exact h part
    · cases part with
      | header => exact ⟨by decide, nofun⟩
      | data => exact ⟨by decide, nofun⟩
  exact (hbounded part).len

end code_tools.ctapi_curl

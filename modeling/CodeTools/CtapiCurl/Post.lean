import CodeTools.CtapiCurl.Receive
import CodeTools.Lib.CString

/-!
# `ctapi_curl_post`

The function sets the options of a handle and lets libcurl make the transfer. What
it returns is the number of bytes received, as an `int`.
-/

namespace code_tools.ctapi_curl

open cmem cstring machine

/-! ## libcurl -/

inductive CURLcode where
  | CURLE_OK
  | failed (code : Nat)
deriving DecidableEq, Repr

/-- The options that are set, with their values. -/
inductive Setopt where
  | POST (value : Nat)
  | POSTFIELDS (data : List UInt8)
  | CAINFO (file : List UInt8)
  | SSL_VERIFYHOST (value : Nat)
  | SSL_VERIFYPEER (value : Nat)
  | URL (url : List UInt8)
  | TIMEOUT (seconds : UInt32)
  | CONNECTTIMEOUT (seconds : UInt32)
  | COOKIESESSION (value : Nat)
  | COOKIEJAR (file : List UInt8)
  | COOKIEFILE (file : List UInt8)

/-- A transfer is the callbacks that it makes, in order, and its result code. -/
structure Libcurl where
  perform : List Setopt → List Event × CURLcode
  strerror : CURLcode → List UInt8

/-! ## The function -/

structure Request where
  url : List UInt8
  method : List UInt8
  post_data : Option (List UInt8)
  save_cookie_fs : Option (List UInt8)
  send_cookie_fs : Option (List UInt8)
  connect_timeout : UInt32
  timeout : UInt32
  error_size : Nat

/-- The calls of `curl_easy_setopt` before the two for the callbacks. -/
def options (q : Request) : List Setopt :=
  (if strcasecmp_eq q.method (bytes_of "POST") then .POST 1 :: (q.post_data.map Setopt.POSTFIELDS).toList else []) ++
  (if strncasecmp_eq q.url (bytes_of "HTTPS") 5 then
    [.CAINFO (bytes_of "./cacert.pem"), .SSL_VERIFYHOST 2, .SSL_VERIFYPEER 1] else []) ++
  [.URL q.url, .TIMEOUT q.timeout, .CONNECTTIMEOUT q.connect_timeout] ++
  (q.save_cookie_fs.elim [] fun file => [.COOKIESESSION 1, .COOKIEJAR file]) ++
  (q.send_cookie_fs.map Setopt.COOKIEFILE).toList

/-- What is in `error` after a transfer that has failed, without the terminator. -/
def error_text (libcurl : Libcurl) (q : Request) (ret : CURLcode) : List UInt8 :=
  let text := bytes_of "curl_easy_perform() failed:" ++ libcurl.strerror ret ++ bytes_of ", url:" ++ q.url
  text.take (q.error_size - 1)

structure Posted where
  ret : Int32
  curl_result_t : CurlResultString
  error : Option (List UInt8)

def ctapi_curl_post (libcurl : Libcurl) (q : Request) : Except Fault Posted := do
  let (events, ret) := libcurl.perform (options q)
  let (curl_result_t, _) ← run callback CurlResultString.zero events
  .ok
    { ret := (curl_result_t.headers.len + curl_result_t.data.len).toUInt32.toInt32
      curl_result_t
      error := if ret = .CURLE_OK then none else some (error_text libcurl q ret) }

/-! ## The bytes received -/

/-- How many bytes the callbacks have accepted. -/
def received (events : List Event) (outs : List Output) : Nat :=
  (observed given (fun _ => []) events outs .header).flatten.length +
    (observed given (fun _ => []) events outs .data).flatten.length

/-- The length of a buffer counts what it was given, modulo the size of `size_t`. -/
structure Counts (p : Pstr) (chunks : List (List UInt8)) : Prop where
  len : p.len.toNat = chunks.flatten.length % 2 ^ 64
  null : p.str = .null → p.len = 0

theorem counts_of_ne {p : Pstr} {chunks : List (List UInt8)} (hlen : p.len.toNat = chunks.flatten.length % 2 ^ 64)
    (hstr : p.str ≠ .null) : Counts p chunks :=
  ⟨hlen, fun hnull => absurd hnull hstr⟩

theorem recive_counts {p p' : Pstr} {chunks : List (List UInt8)} {mem : Allocation} {chunk : Chunk} {out : Output}
    (h : Counts p chunks) (hrecive : recive mem chunk p = .ok (p', out)) : Counts p' (out.after chunks chunk) := by
  obtain ⟨rfl, rfl⟩ | ⟨p₁, p₂, found, hstarted, hgrow, hend⟩ := recive_cases hrecive
  · rwa [Output.after, if_neg (by simp)]
  have h₁ : Counts p₁ chunks := by
    obtain ⟨hnull, rfl⟩ | ⟨_, rfl⟩ := started_cases hstarted
    · have hlen := h.len
      rw [h.null hnull] at hlen
      exact counts_of_ne hlen (by simp)
    · exact h
  have h₂ : Counts p₂ chunks := by
    obtain rfl | rfl | ⟨bytes, rfl⟩ := grow_cases hgrow
    · exact h₁
    · exact counts_of_ne h₁.len (by simp)
    · exact counts_of_ne h₁.len (by simp)
  obtain ⟨_, rfl, rfl⟩ | ⟨_, hstore, rfl⟩ := hend
  · rwa [Output.after, if_neg (by simp)]
  · obtain ⟨bytes, bytes', _, rfl, _, _⟩ := store_cases hstore
    rw [Output.after, if_pos ⟨rfl, rfl⟩]
    refine counts_of_ne ?_ (by simp)
    dsimp only
    rw [UInt64.toNat_add, h₂.len, ← chunk.length, List.flatten_append, List.flatten_singleton, List.length_append,
      Nat.mod_add_mod]

theorem callback_counts {r r' : CurlResultString} {chunks : Part → List (List UInt8)} {e : Event} {out : Output}
    (h : ∀ part, Counts (r.get part) (chunks part)) (hcall : callback r e = .ok (r', out)) (part : Part) :
    Counts (r'.get part) (given chunks e out part) := by
  obtain ⟨hrecive, hothers⟩ := callback_cases hcall
  unfold given
  by_cases hpart : part = e.part
  · rw [if_pos hpart, hpart]
    exact recive_counts (h e.part) hrecive
  · rw [if_neg hpart, hothers part hpart]
    exact h part

/-- The two lengths count the bytes received. -/
theorem lengths_of_run {events : List Event} {r : CurlResultString} {outs : List Output}
    (hrun : run callback CurlResultString.zero events = .ok (r, outs)) :
    (r.headers.len + r.data.len).toNat = received events outs % 2 ^ 64 := by
  have hcounts : ∀ part, Counts (r.get part) (observed given (fun _ => []) events outs part) := by
    refine observed_of_run given (fun r chunks => ∀ part, Counts (r.get part) (chunks part))
      (fun r chunks e r' out h hcall => callback_counts h hcall) (fun part => ?_) hrun
    cases part with
    | header => exact ⟨rfl, fun _ => rfl⟩
    | data => exact ⟨rfl, fun _ => rfl⟩
  have hheaders : r.headers.len.toNat = _ := (hcounts .header).len
  have hdata : r.data.len.toNat = _ := (hcounts .data).len
  rw [UInt64.toNat_add, hheaders, hdata, received, ← Nat.add_mod]

/-! ## What the result says -/

/-- The function returns, and it returns 0 exactly when the transfer has failed. -/
def Reports (libcurl : Libcurl) (q : Request) : Prop :=
  ∃ posted, ctapi_curl_post libcurl q = .ok posted ∧
    (posted.ret = 0 ↔ (libcurl.perform (options q)).2 ≠ .CURLE_OK)

theorem toInt32_eq_zero_iff (x : UInt64) : x.toUInt32.toInt32 = 0 ↔ x.toNat % 2 ^ 32 = 0 := by
  rw [← UInt64.toNat_toUInt32]
  constructor
  · intro hzero
    exact congrArg (fun y : Int32 => y.toBitVec.toNat) hzero
  · intro hzero
    have hword : x.toUInt32 = 0 := UInt32.toNat_inj.mp hzero
    rw [hword]
    rfl

def get_request : Request where
  url := bytes_of "http://h/"
  method := bytes_of "GET"
  post_data := none
  save_cookie_fs := none
  send_cookie_fs := none
  connect_timeout := 1
  timeout := 1
  error_size := 16

/-- A libcurl that makes one transfer. -/
def transfers (events : List Event) (ret : CURLcode) : Libcurl where
  perform := fun _ => (events, ret)
  strerror := fun _ => bytes_of "error"

/-- The connection breaks after three bytes. -/
def broken : Libcurl :=
  transfers [{ part := .data, chunk := bytes_chunk [1, 2, 3] (by decide), mem := plenty }] (.failed 56)

end code_tools.ctapi_curl

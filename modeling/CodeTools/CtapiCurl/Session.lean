import CodeTools.CtapiCurl.Post
import CodeTools.Lib.Settings

/-!
# Several requests on one handle

`ctapi_curl_post` sets options and takes none back, and libcurl keeps them on the
handle for the transfers to come.
-/

namespace code_tools.ctapi_curl

open cmem cstring machine settings

/-- What an option is about. The files for `CURLOPT_COOKIEFILE` add up. -/
inductive Opt where
  | POST
  | POSTFIELDS
  | CAINFO
  | SSL_VERIFYHOST
  | SSL_VERIFYPEER
  | URL
  | TIMEOUT
  | CONNECTTIMEOUT
  | COOKIESESSION
  | COOKIEJAR
  | COOKIEFILE (file : List UInt8)
deriving DecidableEq, Repr

def Setopt.opt : Setopt → Opt
  | .POST _ => .POST
  | .POSTFIELDS _ => .POSTFIELDS
  | .CAINFO _ => .CAINFO
  | .SSL_VERIFYHOST _ => .SSL_VERIFYHOST
  | .SSL_VERIFYPEER _ => .SSL_VERIFYPEER
  | .URL _ => .URL
  | .TIMEOUT _ => .TIMEOUT
  | .CONNECTTIMEOUT _ => .CONNECTTIMEOUT
  | .COOKIESESSION _ => .COOKIESESSION
  | .COOKIEJAR _ => .COOKIEJAR
  | .COOKIEFILE file => .COOKIEFILE file

/-- The options in force on a handle. -/
abbrev CURL := Opt → Option Setopt

/-- What `curl_easy_init` returns, when it returns a handle. -/
def ctapi_curl_create : CURL := fun _ => none

/-- A transfer is made with the options in force. -/
structure Easy where
  perform : CURL → List Event × CURLcode
  strerror : CURLcode → List UInt8

/-- libcurl as a call on this handle finds it. -/
def Easy.holding (libcurl : Easy) (curl : CURL) : Libcurl where
  perform := fun opts => libcurl.perform (settle Setopt.opt curl opts)
  strerror := libcurl.strerror

/-- A request on a handle, which keeps the options. -/
def post (libcurl : Easy) (curl : CURL) (q : Request) : Except Fault (CURL × Posted) := do
  let posted ← ctapi_curl_post (libcurl.holding curl) q
  .ok (settle Setopt.opt curl (options q), posted)

/-! ## What a request sets -/

def Request.is_post (q : Request) : Prop := strcasecmp_eq q.method (bytes_of "POST") = true

def Request.is_https (q : Request) : Prop := strncasecmp_eq q.url (bytes_of "HTTPS") 5 = true

/-- Whether a request sets an option. -/
def Request.Sets (q : Request) : Opt → Prop
  | .POST => q.is_post
  | .POSTFIELDS => q.is_post ∧ q.post_data.isSome
  | .CAINFO => q.is_https
  | .SSL_VERIFYHOST => q.is_https
  | .SSL_VERIFYPEER => q.is_https
  | .URL => True
  | .TIMEOUT => True
  | .CONNECTTIMEOUT => True
  | .COOKIESESSION => q.save_cookie_fs.isSome
  | .COOKIEJAR => q.save_cookie_fs.isSome
  | .COOKIEFILE file => q.send_cookie_fs = some file

theorem mem_options_iff (q : Request) (opt : Opt) : opt ∈ (options q).map Setopt.opt ↔ q.Sets opt := by
  have hmethod : opt ∈ (if strcasecmp_eq q.method (bytes_of "POST") then
      .POST 1 :: (q.post_data.map Setopt.POSTFIELDS).toList else []).map Setopt.opt ↔
      q.is_post ∧ (opt = .POST ∨ (opt = .POSTFIELDS ∧ q.post_data.isSome)) := by
    unfold Request.is_post
    cases q.post_data <;> split <;> simp [Setopt.opt, *]
  have hssl : opt ∈ (if strncasecmp_eq q.url (bytes_of "HTTPS") 5 then
      [.CAINFO (bytes_of "./cacert.pem"), .SSL_VERIFYHOST 2, .SSL_VERIFYPEER 1] else []).map Setopt.opt ↔
      q.is_https ∧ (opt = .CAINFO ∨ opt = .SSL_VERIFYHOST ∨ opt = .SSL_VERIFYPEER) := by
    unfold Request.is_https
    split <;> simp [Setopt.opt, *]
  have hsave : opt ∈ (q.save_cookie_fs.elim [] fun file => [.COOKIESESSION 1, .COOKIEJAR file]).map Setopt.opt ↔
      q.save_cookie_fs.isSome ∧ (opt = .COOKIESESSION ∨ opt = .COOKIEJAR) := by
    cases q.save_cookie_fs <;> simp [Setopt.opt]
  have hsend : opt ∈ ((q.send_cookie_fs.map Setopt.COOKIEFILE).toList).map Setopt.opt ↔
      ∃ file, q.send_cookie_fs = some file ∧ opt = .COOKIEFILE file := by
    cases q.send_cookie_fs <;> simp [Setopt.opt]
  unfold options
  rw [List.map_append, List.map_append, List.map_append, List.map_append, List.mem_append, List.mem_append,
    List.mem_append, List.mem_append, hmethod, hssl, hsave, hsend]
  cases opt <;> simp [Request.Sets, Setopt.opt]

/-- Whether a request sets all that another one does. -/
structure Request.Covers (q p : Request) : Prop where
  post : p.is_post → q.is_post
  data : p.is_post → p.post_data.isSome → q.post_data.isSome
  https : p.is_https → q.is_https
  save : p.save_cookie_fs.isSome → q.save_cookie_fs.isSome
  send : ∀ file, p.send_cookie_fs = some file → q.send_cookie_fs = some file

theorem covers_iff {q p : Request} : q.Covers p ↔ ∀ opt, p.Sets opt → q.Sets opt := by
  constructor
  · rintro ⟨post, data, https, save, send⟩ opt hsets
    cases opt with
    | POST => exact post hsets
    | POSTFIELDS => exact ⟨post hsets.1, data hsets.1 hsets.2⟩
    | CAINFO => exact https hsets
    | SSL_VERIFYHOST => exact https hsets
    | SSL_VERIFYPEER => exact https hsets
    | URL => trivial
    | TIMEOUT => trivial
    | CONNECTTIMEOUT => trivial
    | COOKIESESSION => exact save hsets
    | COOKIEJAR => exact save hsets
    | COOKIEFILE file => exact send file hsets
  · intro hall
    exact ⟨hall .POST, fun hpost hdata => (hall .POSTFIELDS ⟨hpost, hdata⟩).2, hall .CAINFO, hall .COOKIEJAR,
      fun file => hall (.COOKIEFILE file)⟩

/-! ## Sessions -/

/-- A handle holds what all requests before have set. -/
theorem session_options {libcurl : Easy} {qs : List Request} {curl curl' : CURL} {replies : List Posted}
    (hrun : run (post libcurl) curl qs = .ok (curl', replies)) :
    curl' = settle Setopt.opt curl (qs.flatMap options) := by
  induction qs generalizing curl replies with
  | nil =>
    obtain ⟨rfl, _⟩ := by simpa using hrun
    rfl
  | cons q qs ih =>
    obtain ⟨curl₁, posted, replies', hpost, hrest, _⟩ := run_cons_eq_ok_iff.mp hrun
    obtain ⟨_, _, hreturn⟩ := bind_eq_ok_iff.mp hpost
    cases hreturn
    rw [ih hrest, List.flatMap_cons, settle_append]

/-- A libcurl whose transfers fail before anything is received. -/
def failing : Easy where
  perform := fun _ => ([], .failed 7)
  strerror := fun _ => []

def login : Request := { get_request with method := bytes_of "POST", post_data := some (bytes_of "user=a") }

end code_tools.ctapi_curl

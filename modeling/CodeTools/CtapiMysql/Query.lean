import CodeTools.Lib.Heap

/-!
# Queries of `ctapi_mysql.c`

The MySQL client library is a parameter: it answers the n-th connection attempt
and the n-th query that a call makes in any way. `ER_ERROR_LAST` differs between
its versions. What is printed is left out.
-/

namespace code_tools.ctapi_mysql

open cmem

def MYSQL_CONN_TIMEOUT : Nat := 3

def MYSQL_CHARSET_NAME : String := "utf8"

def MYSQL_CONN_RETRY : Int := 1

def ER_ERROR_FIRST : Int := 1000

def CR_SERVER_GONE_ERROR : Int := 2006

def CR_SERVER_LOST : Int := 2013

structure MysqlConn where
  msp : Ptr
  db_host : List UInt8
  db_user : List UInt8
  db_pass : List UInt8
  db_name : List UInt8
  db_port : Nat
  db_conn_timeout : Nat
deriving DecidableEq, Repr

structure Library where
  /-- The object of the n-th attempt; `NULL` when there is no memory. -/
  mysql_init : Nat → Ptr
  /-- Whether `MYSQL_OPT_CONNECT_TIMEOUT` and `MYSQL_SET_CHARSET_NAME` can be set. -/
  timeout_set : Nat → Bool
  charset_set : Nat → Bool
  mysql_real_connect : Nat → Bool
  /-- The error number after the n-th query, if it failed. -/
  mysql_real_query : Nat → Option Int

inductive LibCall where
  | mysql_init (msp : Ptr)
  | mysql_options_timeout (msp : Nat) (timeout : Nat)
  | mysql_options_charset (msp : Nat) (name : String)
  | mysql_real_connect (msp : Nat) (host user pass name : List UInt8) (port : Nat)
  | mysql_autocommit (msp : Nat)
  | mysql_real_query (msp : Ptr) (sql : List UInt8) (len : Int) (succeeded : Bool)
  | mysql_error (msp : Ptr)
  | mysql_errno (msp : Ptr)
  | mysql_close (msp : Ptr)
deriving DecidableEq, Repr

def LibCall.isInit : LibCall → Bool
  | .mysql_init _ => true
  | _ => false

def LibCall.isQuery : LibCall → Bool
  | .mysql_real_query _ _ _ _ => true
  | _ => false

/-- The handle, the calls made so far and the value returned. -/
abbrev Returned := MysqlConn × List LibCall × Int

def _mysql_conn (lib : Library) (handle : MysqlConn) (calls : List LibCall) : Returned :=
  let n := calls.countP (·.isInit)
  let timeout := if handle.db_conn_timeout > 0 then handle.db_conn_timeout else MYSQL_CONN_TIMEOUT
  match lib.mysql_init n with
  | none => (handle, calls ++ [.mysql_init none], -1)
  | some msp =>
    let calls := calls ++ [.mysql_init (some msp), .mysql_options_timeout msp timeout]
    if !lib.timeout_set n then (handle, calls ++ [.mysql_error (some msp), .mysql_close (some msp)], -1)
    else
      let calls := calls ++ [.mysql_options_charset msp MYSQL_CHARSET_NAME]
      if !lib.charset_set n then (handle, calls ++ [.mysql_error (some msp), .mysql_close (some msp)], -1)
      else
        let calls := calls ++ [.mysql_real_connect msp handle.db_host handle.db_user handle.db_pass
          handle.db_name handle.db_port]
        if !lib.mysql_real_connect n then
          ({ handle with msp := none }, calls ++ [.mysql_error (some msp), .mysql_close (some msp)], -2)
        else ({ handle with msp := some msp }, calls ++ [.mysql_autocommit msp], 0)

/-- The `for (; ; )` loop. `err` is what `mysql_errno` returns. -/
def query_loop (ER_ERROR_LAST : Int) (lib : Library) (sql_string : List UInt8) (sql_len options : Int) :
    Nat → MysqlConn → List LibCall → Bool → Except Fault Returned
  | 0, _, _, _ => .error .outOfFuel
  | fuel + 1, handle, calls, retry_flag =>
    match lib.mysql_real_query (calls.countP (·.isQuery)) with
    | none => .ok (handle, calls ++ [.mysql_real_query handle.msp sql_string sql_len true], 0)
    | some err =>
      let calls := calls ++ [.mysql_real_query handle.msp sql_string sql_len false, .mysql_error handle.msp,
        .mysql_errno handle.msp]
      if err ≥ ER_ERROR_FIRST ∧ err ≤ ER_ERROR_LAST then .ok (handle, calls, err)
      else if err = CR_SERVER_GONE_ERROR ∨ err = CR_SERVER_LOST then
        let retry_flag := if options % 2 ≠ MYSQL_CONN_RETRY then true else retry_flag
        -- `break` leads to the `return 0` behind the loop
        if retry_flag then .ok (handle, calls, 0)
        else
          match _mysql_conn lib handle (calls ++ [.mysql_close handle.msp]) with
          | (handle, calls, rc) =>
            if rc ≠ 0 then .ok ({ handle with msp := none }, calls, -1)
            else query_loop ER_ERROR_LAST lib sql_string sql_len options fuel handle calls true
      else .ok (handle, calls, -1)

def _mysql_query (ER_ERROR_LAST : Int) (lib : Library) (fuel : Nat) (handle : Option MysqlConn)
    (sql_string : Option (List UInt8)) (sql_len options : Int) :
    Except Fault (Option MysqlConn × List LibCall × Int) :=
  match handle, sql_string with
  | some handle, some sql_string =>
    if handle.msp.isNone then
      match _mysql_conn lib handle [] with
      | (handle, calls, rc) =>
        if rc ≠ 0 then .ok (some handle, calls, -1)
        else do
          let (handle, calls, rc) ← query_loop ER_ERROR_LAST lib sql_string sql_len options fuel handle calls
            false
          .ok (some handle, calls, rc)
    else do
      let (handle, calls, rc) ← query_loop ER_ERROR_LAST lib sql_string sql_len options fuel handle [] false
      .ok (some handle, calls, rc)
  | handle, _ => .ok (handle, [], -1)

def ct_mysql_query (ER_ERROR_LAST : Int) (lib : Library) (fuel : Nat) (handle : Option MysqlConn)
    (sql_string : Option (List UInt8)) (sql_len options : Int) :
    Except Fault (Option MysqlConn × List LibCall × Int) :=
  _mysql_query ER_ERROR_LAST lib fuel handle sql_string sql_len options

/-! ## Connecting -/

/-- Every call of the n-th connection attempt succeeds. -/
def Library.connects (lib : Library) (n : Nat) : Bool :=
  (lib.mysql_init n).isSome && lib.timeout_set n && lib.charset_set n && lib.mysql_real_connect n

/-- A connection attempt makes no query, and succeeds exactly when all its calls
    do. -/
theorem _mysql_conn_spec (lib : Library) (handle : MysqlConn) (calls : List LibCall) :
    ∃ handle' made rc, _mysql_conn lib handle calls = (handle', calls ++ made, rc) ∧
      made.countP (·.isInit) = 1 ∧ made.countP (·.isQuery) = 0 ∧
      (rc = 0 ↔ lib.connects (calls.countP (·.isInit)) = true) := by
  unfold _mysql_conn Library.connects
  dsimp only
  cases hinit : lib.mysql_init (calls.countP (·.isInit)) with
  | none => exact ⟨_, _, _, rfl, rfl, rfl, by simp⟩
  | some msp =>
    dsimp only
    cases htimeout : lib.timeout_set (calls.countP (·.isInit)) with
    | false =>
      rw [Bool.not_false, if_pos rfl, List.append_assoc]
      exact ⟨_, _, _, rfl, rfl, rfl, by simp⟩
    | true =>
      rw [Bool.not_true, if_neg nofun]
      cases hcharset : lib.charset_set (calls.countP (·.isInit)) with
      | false =>
        rw [Bool.not_false, if_pos rfl, List.append_assoc, List.append_assoc]
        exact ⟨_, _, _, rfl, rfl, rfl, by simp⟩
      | true =>
        rw [Bool.not_true, if_neg nofun]
        cases hconnect : lib.mysql_real_connect (calls.countP (·.isInit)) with
        | false =>
          rw [Bool.not_false, if_pos rfl, List.append_assoc, List.append_assoc, List.append_assoc]
          exact ⟨_, _, _, rfl, rfl, rfl, by simp⟩
        | true =>
          rw [Bool.not_true, if_neg nofun, List.append_assoc, List.append_assoc, List.append_assoc]
          exact ⟨_, _, _, rfl, rfl, rfl, by simp⟩

/-! ## The value of a query -/

/-- Whether the last query among the calls succeeded. -/
def last_query (calls : List LibCall) : Option Bool :=
  (calls.filterMap fun
    | .mysql_real_query _ _ _ succeeded => some succeeded
    | _ => none).getLast?

/-- 0 is returned exactly for a successful last query. -/
def Honest (calls : List LibCall) (rc : Int) : Prop := rc = 0 ↔ last_query calls = some true

/-- The error is taken for a lost connection. -/
def Lost (ER_ERROR_LAST err : Int) : Prop :=
  ¬(err ≥ ER_ERROR_FIRST ∧ err ≤ ER_ERROR_LAST) ∧ (err = CR_SERVER_GONE_ERROR ∨ err = CR_SERVER_LOST)

/-- The n-th query of a call loses the connection. -/
def Library.loses (lib : Library) (ER_ERROR_LAST : Int) (n : Nat) : Prop :=
  ∃ err, lib.mysql_real_query n = some err ∧ Lost ER_ERROR_LAST err

/-- The first query loses the connection, and either a retry is not wanted or the
    connection is lost again after it came back. -/
def LostForGood (ER_ERROR_LAST : Int) (lib : Library) (handle : MysqlConn) (options : Int) : Prop :=
  (handle.msp.isSome ∨ lib.connects 0 = true) ∧ lib.loses ER_ERROR_LAST 0 ∧
    (options % 2 ≠ MYSQL_CONN_RETRY ∨
      lib.connects (if handle.msp.isSome then 0 else 1) = true ∧ lib.loses ER_ERROR_LAST 1)

theorem last_query_append {made : List LibCall} {succeeded : Bool} (calls : List LibCall)
    (hmade : last_query made = some succeeded) : last_query (calls ++ made) = some succeeded := by
  unfold last_query at hmade ⊢
  rw [List.filterMap_append, List.getLast?_append, hmade, Option.some_or]

theorem last_query_append_none {calls made : List LibCall} (hmade : made.countP (·.isQuery) = 0) :
    last_query (calls ++ made) = last_query calls := by
  have hnone : made.filterMap (fun
      | .mysql_real_query _ _ _ succeeded => some succeeded
      | _ => none) = [] := by
    apply List.filterMap_eq_nil_iff.mpr
    intro call hcall
    have hquery := List.countP_eq_zero.mp hmade call hcall
    cases call with
    | mysql_real_query msp sql len succeeded => exact absurd rfl hquery
    | _ => rfl
  unfold last_query
  rw [List.filterMap_append, hnone, List.append_nil]

theorem query_loop_succeeded {ER_ERROR_LAST : Int} {lib : Library} {sql_string : List UInt8}
    {sql_len options : Int} {handle : MysqlConn} {calls : List LibCall} {retry_flag : Bool}
    (hquery : lib.mysql_real_query (calls.countP (·.isQuery)) = none) :
    ∃ handle' calls' rc,
      (∀ fuel, query_loop ER_ERROR_LAST lib sql_string sql_len options (fuel + 1) handle calls retry_flag =
        .ok (handle', calls', rc)) ∧ Honest calls' rc := by
  refine ⟨handle, calls ++ [.mysql_real_query handle.msp sql_string sql_len true], 0, fun fuel => ?_, ?_⟩
  · unfold query_loop
    rw [hquery]
  · exact iff_of_true rfl (last_query_append calls rfl)

/-- An error that is no lost connection ends the loop with a nonzero value. -/
theorem query_loop_refused {ER_ERROR_LAST : Int} {lib : Library} {sql_string : List UInt8}
    {sql_len options : Int} {handle : MysqlConn} {calls : List LibCall} {retry_flag : Bool} {err : Int}
    (hquery : lib.mysql_real_query (calls.countP (·.isQuery)) = some err) (hnot : ¬Lost ER_ERROR_LAST err) :
    ∃ handle' calls' rc,
      (∀ fuel, query_loop ER_ERROR_LAST lib sql_string sql_len options (fuel + 1) handle calls retry_flag =
        .ok (handle', calls', rc)) ∧ Honest calls' rc := by
  have hlast : last_query (calls ++ [.mysql_real_query handle.msp sql_string sql_len false,
      .mysql_error handle.msp, .mysql_errno handle.msp]) = some false := last_query_append calls rfl
  unfold Lost at hnot
  by_cases hserver : err ≥ ER_ERROR_FIRST ∧ err ≤ ER_ERROR_LAST
  · refine ⟨handle, _, err, fun fuel => ?_, iff_of_false ?_ (by rw [hlast]; nofun)⟩
    · unfold query_loop
      rw [hquery]
      dsimp only
      rw [if_pos hserver]
    · unfold ER_ERROR_FIRST at hserver
      omega
  · refine ⟨handle, _, -1, fun fuel => ?_, iff_of_false nofun (by rw [hlast]; nofun)⟩
    unfold query_loop
    rw [hquery]
    dsimp only
    rw [if_neg hserver, if_neg fun hlost => hnot ⟨hserver, hlost⟩]

/-- A lost connection that is not tried again ends the loop with 0. -/
theorem query_loop_dropped {ER_ERROR_LAST : Int} {lib : Library} {sql_string : List UInt8}
    {sql_len options : Int} {handle : MysqlConn} {calls : List LibCall} {retry_flag : Bool}
    (hlost : lib.loses ER_ERROR_LAST (calls.countP (·.isQuery)))
    (hretry : options % 2 ≠ MYSQL_CONN_RETRY ∨ retry_flag = true) :
    ∃ handle' calls' rc,
      (∀ fuel, query_loop ER_ERROR_LAST lib sql_string sql_len options (fuel + 1) handle calls retry_flag =
        .ok (handle', calls', rc)) ∧ ¬Honest calls' rc := by
  obtain ⟨err, hquery, hserver, hgone⟩ := hlost
  have hlast : last_query (calls ++ [.mysql_real_query handle.msp sql_string sql_len false,
      .mysql_error handle.msp, .mysql_errno handle.msp]) = some false := last_query_append calls rfl
  have hflag : (if options % 2 ≠ MYSQL_CONN_RETRY then true else retry_flag) = true := by
    rcases hretry with hunwanted | hflag
    · rw [if_pos hunwanted]
    · rw [hflag, ite_self]
  refine ⟨handle, calls ++ [.mysql_real_query handle.msp sql_string sql_len false, .mysql_error handle.msp,
    .mysql_errno handle.msp], 0, fun fuel => ?_, fun hhonest => ?_⟩
  · unfold query_loop
    rw [hquery]
    dsimp only
    rw [if_neg hserver, if_pos hgone, hflag, if_pos rfl]
  · have htrue := hhonest.mp rfl
    rw [hlast] at htrue
    cases htrue

/-- A query that does not lose the connection ends the loop, and honestly. -/
theorem query_loop_answered {ER_ERROR_LAST : Int} {lib : Library} (sql_string : List UInt8)
    (sql_len options : Int) (handle : MysqlConn) {calls : List LibCall} (retry_flag : Bool)
    (hkept : ¬lib.loses ER_ERROR_LAST (calls.countP (·.isQuery))) :
    ∃ handle' calls' rc,
      (∀ fuel, query_loop ER_ERROR_LAST lib sql_string sql_len options (fuel + 1) handle calls retry_flag =
        .ok (handle', calls', rc)) ∧ Honest calls' rc := by
  cases hquery : lib.mysql_real_query (calls.countP (·.isQuery)) with
  | none => exact query_loop_succeeded hquery
  | some err => exact query_loop_refused hquery fun hgone => hkept ⟨err, hquery, hgone⟩

/-- Without a retry left, the value is honest unless the connection is lost. -/
theorem query_loop_final (ER_ERROR_LAST : Int) (lib : Library) (sql_string : List UInt8)
    (sql_len options : Int) (handle : MysqlConn) (calls : List LibCall) {retry_flag : Bool}
    (hretry : options % 2 ≠ MYSQL_CONN_RETRY ∨ retry_flag = true) :
    ∃ handle' calls' rc,
      (∀ fuel, query_loop ER_ERROR_LAST lib sql_string sql_len options (fuel + 1) handle calls retry_flag =
        .ok (handle', calls', rc)) ∧
      (Honest calls' rc ↔ ¬lib.loses ER_ERROR_LAST (calls.countP (·.isQuery))) := by
  by_cases hlost : lib.loses ER_ERROR_LAST (calls.countP (·.isQuery))
  · obtain ⟨handle', calls', rc, hloop, hnot⟩ := query_loop_dropped hlost hretry
    exact ⟨handle', calls', rc, hloop, iff_of_false hnot (not_not_intro hlost)⟩
  · obtain ⟨handle', calls', rc, hloop, hhonest⟩ :=
      query_loop_answered sql_string sql_len options handle retry_flag hlost
    exact ⟨handle', calls', rc, hloop, iff_of_true hhonest hlost⟩

/-- With a retry left, a lost connection is honest if the next attempt fails or
    the query after it does not lose the connection again. -/
theorem query_loop_retried {ER_ERROR_LAST : Int} {lib : Library} (sql_string : List UInt8)
    (sql_len : Int) {options : Int} (handle : MysqlConn) {calls : List LibCall}
    (hlost : lib.loses ER_ERROR_LAST (calls.countP (·.isQuery)))
    (hretry : options % 2 = MYSQL_CONN_RETRY) :
    ∃ handle' calls' rc,
      (∀ fuel, query_loop ER_ERROR_LAST lib sql_string sql_len options (fuel + 2) handle calls false =
        .ok (handle', calls', rc)) ∧
      (Honest calls' rc ↔ ¬(lib.connects (calls.countP (·.isInit)) = true ∧
        lib.loses ER_ERROR_LAST (calls.countP (·.isQuery) + 1))) := by
  obtain ⟨err, hquery, hserver, hgone⟩ := hlost
  obtain ⟨before, hbefore⟩ : ∃ before, before = calls ++ [.mysql_real_query handle.msp sql_string sql_len false,
      .mysql_error handle.msp, .mysql_errno handle.msp] ++ [.mysql_close handle.msp] := ⟨_, rfl⟩
  have hinits : before.countP (·.isInit) = calls.countP (·.isInit) := by
    rw [hbefore]
    simp [LibCall.isInit]
  have hqueries : before.countP (·.isQuery) = calls.countP (·.isQuery) + 1 := by
    rw [hbefore]
    simp [LibCall.isQuery]
  obtain ⟨handle₁, made, rc₁, hconn, _, hnone, hworks⟩ := _mysql_conn_spec lib handle before
  rw [hinits] at hworks
  have hunfold : ∀ fuel,
      query_loop ER_ERROR_LAST lib sql_string sql_len options (fuel + 2) handle calls false =
        if rc₁ ≠ 0 then .ok ({ handle₁ with msp := none }, before ++ made, -1)
        else query_loop ER_ERROR_LAST lib sql_string sql_len options (fuel + 1) handle₁ (before ++ made) true := by
    intro fuel
    rw [query_loop]
    rw [hquery]
    dsimp only
    rw [if_neg hserver, if_pos hgone, if_neg (not_not_intro hretry), if_neg nofun, ← hbefore, hconn]
  by_cases hrc : rc₁ = 0
  · obtain ⟨handle', calls', rc, hloop, hhonest⟩ := query_loop_final ER_ERROR_LAST lib sql_string sql_len
      options handle₁ (before ++ made) (Or.inr rfl)
    refine ⟨handle', calls', rc, fun fuel => ?_, ?_⟩
    · rw [hunfold, if_neg (not_not_intro hrc), hloop]
    · have hcount : (before ++ made).countP (·.isQuery) = calls.countP (·.isQuery) + 1 := by
        rw [List.countP_append, hqueries, hnone]
      rw [hhonest, hcount]
      simp [hworks.mp hrc]
  · have hlast : last_query (before ++ made) = some false := by
      rw [last_query_append_none hnone, hbefore, last_query_append_none rfl]
      exact last_query_append calls rfl
    refine ⟨{ handle₁ with msp := none }, before ++ made, -1, fun fuel => ?_, iff_of_true
      (iff_of_false nofun (by rw [hlast]; nofun)) fun hboth => hrc (hworks.mpr hboth.1)⟩
    rw [hunfold, if_pos hrc]

/-- The loop from its start: dishonest only when the connection is lost for
    good. -/
theorem query_loop_spec (ER_ERROR_LAST : Int) (lib : Library) (sql_string : List UInt8)
    (sql_len options : Int) (handle : MysqlConn) (calls : List LibCall) :
    ∃ handle' calls' rc,
      (∀ fuel, query_loop ER_ERROR_LAST lib sql_string sql_len options (fuel + 2) handle calls false =
        .ok (handle', calls', rc)) ∧
      (Honest calls' rc ↔ ¬(lib.loses ER_ERROR_LAST (calls.countP (·.isQuery)) ∧
        (options % 2 ≠ MYSQL_CONN_RETRY ∨ lib.connects (calls.countP (·.isInit)) = true ∧
          lib.loses ER_ERROR_LAST (calls.countP (·.isQuery) + 1)))) := by
  by_cases hretry : options % 2 = MYSQL_CONN_RETRY
  · by_cases hlost : lib.loses ER_ERROR_LAST (calls.countP (·.isQuery))
    · obtain ⟨handle', calls', rc, hloop, hhonest⟩ :=
        query_loop_retried sql_string sql_len handle hlost hretry
      refine ⟨handle', calls', rc, hloop, hhonest.trans (not_congr ?_)⟩
      simp [hlost, hretry]
    · obtain ⟨handle', calls', rc, hloop, hhonest⟩ :=
        query_loop_answered sql_string sql_len options handle false hlost
      exact ⟨handle', calls', rc, fun fuel => hloop (fuel + 1), iff_of_true hhonest fun h => hlost h.1⟩
  · obtain ⟨handle', calls', rc, hloop, hhonest⟩ := query_loop_final ER_ERROR_LAST lib sql_string sql_len
      options handle calls (Or.inl hretry)
    refine ⟨handle', calls', rc, fun fuel => hloop (fuel + 1), hhonest.trans (not_congr ?_)⟩
    simp [hretry]

theorem _mysql_query_connected (ER_ERROR_LAST : Int) (lib : Library) {handle : MysqlConn}
    (hmsp : handle.msp.isSome) (sql_string : List UInt8) (sql_len options : Int) :
    ∃ handle' calls rc,
      (∀ fuel, _mysql_query ER_ERROR_LAST lib (fuel + 2) (some handle) (some sql_string) sql_len options =
        .ok (handle', calls, rc)) ∧
      (Honest calls rc ↔ ¬LostForGood ER_ERROR_LAST lib handle options) := by
  obtain ⟨handle', calls, rc, hloop, hhonest⟩ :=
    query_loop_spec ER_ERROR_LAST lib sql_string sql_len options handle []
  refine ⟨some handle', calls, rc, fun fuel => ?_, hhonest.trans (not_congr ?_)⟩
  · unfold _mysql_query
    dsimp only
    rw [if_neg (by simp [Option.isSome_iff_ne_none.mp hmsp]), hloop, ok_bind]
  · unfold LostForGood
    simp [hmsp]

theorem _mysql_query_unconnected (ER_ERROR_LAST : Int) (lib : Library) {handle : MysqlConn}
    (hmsp : handle.msp = none) (sql_string : List UInt8) (sql_len options : Int) :
    ∃ handle' calls rc,
      (∀ fuel, _mysql_query ER_ERROR_LAST lib (fuel + 2) (some handle) (some sql_string) sql_len options =
        .ok (handle', calls, rc)) ∧
      (Honest calls rc ↔ ¬LostForGood ER_ERROR_LAST lib handle options) := by
  obtain ⟨handle₁, made, rc₁, hconn, hinits, hnone, hworks⟩ := _mysql_conn_spec lib handle []
  rw [List.nil_append] at hconn
  by_cases hrc : rc₁ = 0
  · obtain ⟨handle', calls, rc, hloop, hhonest⟩ :=
      query_loop_spec ER_ERROR_LAST lib sql_string sql_len options handle₁ made
    refine ⟨some handle', calls, rc, fun fuel => ?_, hhonest.trans (not_congr ?_)⟩
    · unfold _mysql_query
      dsimp only
      rw [if_pos (by rw [hmsp]; rfl), hconn]
      dsimp only
      rw [if_neg (not_not_intro hrc), hloop, ok_bind]
    · unfold LostForGood
      have hfirst : lib.connects 0 = true := hworks.mp hrc
      rw [hnone, hinits]
      simp [hmsp, hfirst]
  · refine ⟨some handle₁, made, -1, fun fuel => ?_, iff_of_true (iff_of_false nofun ?_) ?_⟩
    · unfold _mysql_query
      dsimp only
      rw [if_pos (by rw [hmsp]; rfl), hconn]
      dsimp only
      rw [if_pos hrc]
    · have hlast : last_query ([] ++ made) = last_query [] := last_query_append_none hnone
      rw [← List.nil_append made, hlast]
      nofun
    · intro hlost
      rcases hlost.1 with hsome | hfirst
      · rw [hmsp] at hsome
        cases hsome
      · exact hrc (hworks.mpr hfirst)

/-- For every statement, options and outcomes of connection attempts and queries,
    and for every number of the last server error, a query comes back after at
    most two turns of its loop, and 0 means that the last query succeeded, unless
    the connection is lost for good. -/
theorem ct_mysql_query_honest_iff (ER_ERROR_LAST : Int) (lib : Library) (handle : Option MysqlConn)
    (sql_string : Option (List UInt8)) (sql_len options : Int) :
    ∃ handle' calls rc,
      (∀ fuel, 2 ≤ fuel → ct_mysql_query ER_ERROR_LAST lib fuel handle sql_string sql_len options =
        .ok (handle', calls, rc)) ∧
      (Honest calls rc ↔ ∀ h, handle = some h → sql_string.isSome →
        ¬LostForGood ER_ERROR_LAST lib h options) := by
  unfold ct_mysql_query
  cases handle with
  | none => exact ⟨none, [], -1, fun _ _ => rfl, iff_of_true (iff_of_false nofun nofun) nofun⟩
  | some h =>
    cases sql_string with
    | none =>
      exact ⟨some h, [], -1, fun _ _ => rfl, iff_of_true (iff_of_false nofun nofun) fun _ _ hsome => by cases hsome⟩
    | some sql_string =>
      have hquery : ∃ handle' calls rc,
          (∀ fuel, _mysql_query ER_ERROR_LAST lib (fuel + 2) (some h) (some sql_string) sql_len options =
            .ok (handle', calls, rc)) ∧ (Honest calls rc ↔ ¬LostForGood ER_ERROR_LAST lib h options) := by
        cases hmsp : h.msp with
        | none => exact _mysql_query_unconnected ER_ERROR_LAST lib hmsp sql_string sql_len options
        | some msp =>
          exact _mysql_query_connected ER_ERROR_LAST lib (by rw [hmsp]; rfl) sql_string sql_len options
      obtain ⟨handle', calls, rc, hreturns, hhonest⟩ := hquery
      refine ⟨handle', calls, rc, fun fuel hfuel => ?_, hhonest.trans ?_⟩
      · obtain ⟨fuel, rfl⟩ := Nat.exists_eq_add_of_le' hfuel
        exact hreturns fuel
      · simp

/-- A library that always connects and whose first query finds the server gone. -/
def gone_away : Library :=
  { mysql_init := fun n => some n
    timeout_set := fun _ => true
    charset_set := fun _ => true
    mysql_real_connect := fun _ => true
    mysql_real_query := fun _ => some CR_SERVER_GONE_ERROR }

def idle_handle : MysqlConn :=
  { msp := some 9, db_host := [104], db_user := [117], db_pass := [112], db_name := [110], db_port := 3306,
    db_conn_timeout := 0 }

/-- Without the retry option a lost connection returns 0 after its only query
    failed. -/
theorem lost_query_returns_zero :
    ∃ calls, ct_mysql_query 1973 gone_away 2 (some idle_handle) (some [115]) 1 0 =
        .ok (some idle_handle, calls, 0) ∧
      last_query calls = some false ∧ ¬Honest calls 0 := by
  refine ⟨_, rfl, rfl, fun hhonest => ?_⟩
  have htrue := hhonest.mp rfl
  cases htrue

end code_tools.ctapi_mysql

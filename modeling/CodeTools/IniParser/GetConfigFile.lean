import CodeTools.IniParser.LoadConf

/-!
# The configurations of the four programs

Each `get_config_file` looks up one key after another and prints what it finds, or a
default, into a buffer. The defaults of `ctchild` are numbers, which `%s` takes for
addresses.
-/

namespace code_tools.config

open cmem cstring iniparser

/-- The buffers of the programs. -/
inductive Var where
  | clog_level | cport | cmax_connect | crw_timeout | cpidfile | child_exec | cback_ip | cback_port
deriving DecidableEq, Repr

/-- What is done when a key is not there. -/
inductive Missing where
  /-- A string is printed. -/
  | text (default : List UInt8)
  /-- A number is printed as if it were a string. -/
  | number (default : Nat)
  | warn
  /-- 1 is returned. -/
  | fail
deriving DecidableEq, Repr

def Missing.harmless : Missing → Bool
  | .text _ => true
  | .warn => true
  | _ => false

structure Setting where
  key : List UInt8
  var : Var
  /-- `sizeof` of the buffer. -/
  size : Nat
  missing : Missing
deriving DecidableEq, Repr

/-- The strings in the buffers. -/
abbrev Vars : Type := Var → List UInt8

/-- `snprintf(buf, sizeof(buf), "%s", text)` -/
def Setting.print (setting : Setting) (vars : Vars) (text : List UInt8) : Vars :=
  Function.update vars setting.var (text.take (setting.size - 1))

def read_settings (conf : dictionary) : List Setting → Vars → Except Fault (Vars × Int)
  | [], vars => .ok (vars, 0)
  | setting :: settings, vars =>
    match dictionary_get conf setting.key none with
    | some text => read_settings conf settings (setting.print vars text)
    | none =>
      match setting.missing with
      | .text default => read_settings conf settings (setting.print vars default)
      | .number _ => .error .danglingPointer
      | .warn => read_settings conf settings vars
      | .fail => .ok (vars, 1)

/-- `none` when the loading does not end. -/
def get_settings (settings : List Setting) (files : Files) (cfg_ini : List UInt8) (vars : Vars) :
    Option (Except Fault (Vars × Int)) :=
  (open_conf_file files [] (some cfg_ini)).map fun dict_conf =>
    match dict_conf with
    | none => .ok (vars, 1)
    | some conf => read_settings conf settings vars

def MAX_LINE : Nat := 1024

end code_tools.config

/-! ## The programs -/

namespace code_tools.server_epoll.server

open config cstring iniparser

def settings : List Setting :=
  [{ key := bytes_of "server:log_level", var := .clog_level, size := 128, missing := .text (bytes_of "8") },
    { key := bytes_of "server:bind_port", var := .cport, size := 128, missing := .text (bytes_of "3331") },
    { key := bytes_of "server:max_connect", var := .cmax_connect, size := 128, missing := .text (bytes_of "1024") },
    { key := bytes_of "server:rw_timeout", var := .crw_timeout, size := 128, missing := .text (bytes_of "2") },
    { key := bytes_of "server:pidfile", var := .cpidfile, size := MAX_LINE,
      missing := .text (bytes_of "/var/run/rp_server.pid") }]

def get_config_file (files : Files) (cfg_ini : List UInt8) (vars : Vars) : Option (Except cmem.Fault (Vars × Int)) :=
  get_settings settings files cfg_ini vars

end code_tools.server_epoll.server

namespace code_tools.server_epoll.child

open config cstring iniparser

def settings : List Setting :=
  [{ key := bytes_of "child:log_level", var := .clog_level, size := 128, missing := .text (bytes_of "8") },
    { key := bytes_of "child:rw_timeout", var := .crw_timeout, size := 128, missing := .text (bytes_of "2") },
    { key := bytes_of "child:back_ip", var := .cback_ip, size := MAX_LINE, missing := .warn },
    { key := bytes_of "child:back_port", var := .cback_port, size := MAX_LINE, missing := .warn }]

def get_config_file (files : Files) (cfg_ini : List UInt8) (vars : Vars) : Option (Except cmem.Fault (Vars × Int)) :=
  get_settings settings files cfg_ini vars

end code_tools.server_epoll.child

namespace code_tools.ctproxy.ctserver

open config cstring iniparser

def settings : List Setting :=
  [{ key := bytes_of "server:log_level", var := .clog_level, size := 128, missing := .text (bytes_of "8") },
    { key := bytes_of "server:bind_port", var := .cport, size := 128, missing := .text (bytes_of "3331") },
    { key := bytes_of "server:max_connect", var := .cmax_connect, size := 128, missing := .text (bytes_of "128") },
    { key := bytes_of "server:pidfile", var := .cpidfile, size := MAX_LINE,
      missing := .text (bytes_of "/var/run/ctserver.pid") },
    { key := bytes_of "server:child_exec", var := .child_exec, size := MAX_LINE,
      missing := .text (bytes_of "/usr/local/ctproxy/bin/ctchild") },
    { key := bytes_of "server:rw_timeout", var := .crw_timeout, size := 128, missing := .text (bytes_of "2") }]

def get_config_file (files : Files) (cfg_ini : List UInt8) (vars : Vars) : Option (Except cmem.Fault (Vars × Int)) :=
  get_settings settings files cfg_ini vars

end code_tools.ctproxy.ctserver

namespace code_tools.ctproxy.ctchild

open config cstring iniparser

def settings : List Setting :=
  [{ key := bytes_of "child:log_level", var := .clog_level, size := 128, missing := .number 8 },
    { key := bytes_of "child:rw_timeout", var := .crw_timeout, size := 128, missing := .number 5 },
    { key := bytes_of "child:back_ip", var := .cback_ip, size := MAX_LINE, missing := .fail },
    { key := bytes_of "child:back_port", var := .cback_port, size := MAX_LINE, missing := .fail }]

def get_config_file (files : Files) (cfg_ini : List UInt8) (vars : Vars) : Option (Except cmem.Fault (Vars × Int)) :=
  get_settings settings files cfg_ini vars

end code_tools.ctproxy.ctchild

/-! ## What the settings come to -/

namespace code_tools.config

open cmem cstring iniparser

/-- What the buffer of a setting holds afterwards, for what is set under its key. -/
def Setting.after (setting : Setting) (found : Option (Option (List UInt8))) (old : List UInt8) : List UInt8 :=
  match found.join, setting.missing with
  | some text, _ => text.take (setting.size - 1)
  | none, .text default => default.take (setting.size - 1)
  | none, _ => old

/-- All settings are read, and no other buffer is touched. -/
structure Configured (m : List UInt8 → Option (Option (List UInt8))) (settings : List Setting) (vars vars' : Vars) :
    Prop where
  read : ∀ setting ∈ settings, vars' setting.var = setting.after (m setting.key) (vars setting.var)
  kept : ∀ x, x ∉ settings.map Setting.var → vars' x = vars x

theorem dictionary_get_none (conf : dictionary) (key : List UInt8) :
    dictionary_get conf key none = (conf.lookup key).join := by
  rw [dictionary_get_eq]
  cases conf.lookup key with
  | none => rfl
  | some v => rfl

/-- The key is there, or there is something to do without it. -/
def Setting.goes_on (conf : dictionary) (setting : Setting) : Prop :=
  (conf.lookup setting.key).join ≠ none ∨ setting.missing.harmless = true

theorem read_settings_cons {conf : dictionary} {setting : Setting} (hgoes : setting.goes_on conf)
    (settings : List Setting) (vars : Vars) :
    read_settings conf (setting :: settings) vars = read_settings conf settings
      (Function.update vars setting.var (setting.after (conf.lookup setting.key) (vars setting.var))) := by
  rw [read_settings, dictionary_get_none, Setting.after]
  cases hfound : (conf.lookup setting.key).join with
  | some text => rfl
  | none =>
    have hharmless := hgoes.resolve_left (not_not_intro hfound)
    cases hmissing : setting.missing with
    | text default => rfl
    | warn =>
      dsimp only
      rw [Function.update_eq_self]
    | number default =>
      rw [hmissing] at hharmless
      cases hharmless
    | fail =>
      rw [hmissing] at hharmless
      cases hharmless

theorem read_settings_configured {conf : dictionary} {settings : List Setting}
    (hdistinct : (settings.map Setting.var).Nodup) (hgoes : ∀ setting ∈ settings, setting.goes_on conf) (vars : Vars) :
    ∃ vars', read_settings conf settings vars = .ok (vars', 0) ∧ Configured conf.lookup settings vars vars' := by
  induction settings generalizing vars with
  | nil => exact ⟨vars, rfl, nofun, fun _ _ => rfl⟩
  | cons setting settings ih =>
    obtain ⟨hnew, hdistinct⟩ := List.nodup_cons.mp hdistinct
    obtain ⟨hfirst, hgoes⟩ := List.forall_mem_cons.mp hgoes
    obtain ⟨vars', hread, hconfigured⟩ := ih hdistinct hgoes
      (Function.update vars setting.var (setting.after (conf.lookup setting.key) (vars setting.var)))
    refine ⟨vars', by rw [read_settings_cons hfirst, hread], ?_, fun x hx => ?_⟩
    · refine List.forall_mem_cons.mpr ⟨?_, fun other hother => ?_⟩
      · rw [hconfigured.kept _ hnew, Function.update_self]
      · have hne : other.var ≠ setting.var := fun heq => hnew (heq ▸ List.mem_map_of_mem hother)
        rw [hconfigured.read other hother, Function.update_of_ne hne]
    · rw [List.map_cons, List.mem_cons, not_or] at hx
      rw [hconfigured.kept x hx.2, Function.update_of_ne hx.1]

theorem get_settings_loaded {settings : List Setting} {files : Files} {cfg_ini text : List UInt8} {d : dictionary}
    (hfile : files cfg_ini = some text) (hload : iniparser_load (some text) = some (some d)) (vars : Vars) :
    get_settings settings files cfg_ini vars = some (read_settings d settings vars) := by
  rw [get_settings, open_conf_file, Option.getD_some, hfile, hload, Option.map_some]

theorem get_settings_harmless {settings : List Setting} {files : Files} {cfg_ini text : List UInt8} {d : dictionary}
    (hdistinct : (settings.map Setting.var).Nodup) (hharmless : ∀ setting ∈ settings, setting.missing.harmless = true)
    (hfile : files cfg_ini = some text) (hload : iniparser_load (some text) = some (some d)) (vars : Vars) :
    ∃ vars', get_settings settings files cfg_ini vars = some (.ok (vars', 0)) ∧
      Configured d.lookup settings vars vars' := by
  obtain ⟨vars', hread, hconfigured⟩ := read_settings_configured hdistinct
    (fun setting hsetting => Or.inr (hharmless setting hsetting)) vars
  exact ⟨vars', by rw [get_settings_loaded hfile hload, hread], hconfigured⟩

/-- A key of a section is there with a value if it is there. -/
theorem join_eq_none_iff {d : dictionary} (hd : SectionedMap d.lookup) {key : List UInt8} (hcolon : COLON ∈ key) :
    (d.lookup key).join = none ↔ d.lookup key = none := by
  cases hlookup : d.lookup key with
  | none => exact ⟨fun _ => rfl, fun _ => rfl⟩
  | some v =>
    obtain ⟨_, _, w, _, _, _, rfl, _⟩ := hd.keys key v hlookup hcolon
    exact ⟨nofun, nofun⟩

/-- `ctchild` reads an address that is none if one of its first two keys is not there,
    and reports the lack of one of the other two. -/
theorem read_settings_ctchild (conf : dictionary) (vars : Vars) :
    (read_settings conf ctproxy.ctchild.settings vars = .error .danglingPointer ↔
        (conf.lookup (bytes_of "child:log_level")).join = none ∨
          (conf.lookup (bytes_of "child:rw_timeout")).join = none) ∧
      ((∃ vars', read_settings conf ctproxy.ctchild.settings vars = .ok (vars', 0)) ↔
        ∀ setting ∈ ctproxy.ctchild.settings, (conf.lookup setting.key).join ≠ none) := by
  simp only [ctproxy.ctchild.settings, read_settings, dictionary_get_none, List.forall_mem_cons]
  cases (conf.lookup (bytes_of "child:log_level")).join with
  | none => simp
  | some log_level =>
    cases (conf.lookup (bytes_of "child:rw_timeout")).join with
    | none => simp
    | some rw_timeout =>
      cases (conf.lookup (bytes_of "child:back_ip")).join with
      | none => simp
      | some back_ip =>
        cases (conf.lookup (bytes_of "child:back_port")).join with
        | none => simp
        | some back_port => simp

theorem sectionName_child : SectionName ((bytes_of "child").map tolower) where
  ne_nil := by decide
  no_end := by decide +kernel
  no_closing := by decide
  no_colon := by decide
  stripped := by decide +kernel
  lower := by decide +kernel
  short := by decide

theorem saveable_rw_timeout :
    Saveable ((bytes_of "child").map tolower) ((bytes_of "rw_timeout").map tolower) (bytes_of "5") where
  key_name := ⟨by decide, by decide +kernel, by decide +kernel, by decide, by decide +kernel, by decide +kernel⟩
  no_end := by decide +kernel
  readable := ⟨by decide +kernel, by decide +kernel, by decide +kernel, by decide +kernel⟩
  no_section := by decide
  no_backslash := by decide
  short := by decide
  fits := by decide

end code_tools.config

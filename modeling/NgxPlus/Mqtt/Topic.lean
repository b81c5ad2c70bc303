import NgxPlus.Lib.ByteMem

/-!
# Topics as C strings

| here | there |
| --- | --- |
| `cString`                  | the bytes a `u_char *` denotes to the C library: up to the first NUL |
| `ngxStrstr`                | `ngx_strstr`, i.e. `strstr`, as the position found |
| `luaUtilityIndexOf`        | `lua_utility_indexOf` (`mqtt_protocol.c:17-34`), -1 when not found |
| `ngxMqttTopicIsExpression` | `ngx_mqtt_topic_is_expression` (`ngx_http_lua_mqtt_module.c:275-291`) |
| `plusLoop`, `wildcardLoop`, `ngxMqttTopicWildcardMatch` | `ngx_mqtt_topic_wildcard_match` (`:305-351`) |

Memory behind a pointer is the finite list of bytes up to the end of what is mapped. A Lua
string is passed to C with a NUL behind it, so there `cString` is applied to the string itself.
-/

namespace NgxPlus.Mqtt

open ByteMem

def cString (m : Bytes) : Bytes := m.takeWhile (· != 0)

theorem cString_append {s : Bytes} (h : 0 ∉ s) (m : Bytes) : cString (s ++ m) = s ++ cString m := by
  refine List.takeWhile_append_of_pos fun c hc => ?_
  have : c ≠ 0 := fun h0 => h (h0 ▸ hc)
  simpa using this

theorem cString_eq_self {s : Bytes} (h : 0 ∉ s) : cString s = s := by
  simpa [cString] using cString_append h []

/-- Nothing behind the NUL is read. -/
theorem cString_append_nul (s m : Bytes) : cString (s ++ 0 :: m) = cString s := by
  induction s with
  | nil => rfl
  | cons c s ih =>
    unfold cString at ih ⊢
    simp only [List.cons_append, List.takeWhile_cons, ih]

/-- The first position of a C string at which `str2` starts. -/
def ngxStrstr (str1 str2 : Bytes) : Option Nat :=
  match str1 with
  | [] => if str2.isPrefixOf [] then some 0 else none
  | c :: cs => if str2.isPrefixOf (c :: cs) then some 0 else (ngxStrstr cs str2).map (· + 1)

theorem ngxStrstr_eq_zero {str1 str2 : Bytes} : ngxStrstr str1 str2 = some 0 ↔ str2 <+: str1 := by
  rw [← List.isPrefixOf_iff_prefix]
  cases str1 with
  | nil => simp [ngxStrstr]
  | cons c cs => simp [ngxStrstr]

def luaUtilityIndexOf (str1 str2 : Bytes) : Int :=
  match ngxStrstr (cString str1) (cString str2) with
  | none => -1
  | some i => i

theorem luaUtilityIndexOf_eq_zero (str1 str2 : Bytes) :
    luaUtilityIndexOf str1 str2 = 0 ↔ cString str2 <+: cString str1 := by
  rw [← ngxStrstr_eq_zero]
  unfold luaUtilityIndexOf
  cases ngxStrstr (cString str1) (cString str2) with
  | none => simp
  | some i => simp

def ngxMqttTopicIsExpression (topic : Bytes) : Bool :=
  (cString topic).any fun c => c == 0x2b || c == 0x23

/-! ## Wildcards -/

/-- The `do … while` of `+`: behind the next `/`, or behind the topic. -/
def plusLoop (topic : Mem) (topLen : Nat) : Nat → Nat → Nat
  | 0, j => j
  | fuel + 1, j => if topic.get j ≠ 0x2f ∧ j + 1 < topLen then plusLoop topic topLen fuel (j + 1) else j + 1

/-- From position `i` of the filter and `j` of the topic. -/
def wildcardLoop (topic : Mem) (topLen seachLen : Nat) : Bytes → Nat → Nat → Bool
  | [], _, j => decide (topLen = j)
  | c :: search, i, j =>
    if c = 0x2b then
      let j := plusLoop topic topLen (topLen + 1) j
      if j < topLen then
        if i ≥ seachLen - 1 then false else wildcardLoop topic topLen seachLen search (i + 1) (j - 1)
      else true
    else if c = 0x23 then true
    else if c = 0x2f then
      if c ≠ topic.get j then decide (sizeSub i (j + 1) = 2)
      else wildcardLoop topic topLen seachLen search (i + 1) (j + 1)
    else if c ≠ topic.get j then false
    else wildcardLoop topic topLen seachLen search (i + 1) (j + 1)

def ngxMqttTopicWildcardMatch (topic : Mem) (topLen : Nat) (search : Bytes) : Bool :=
  if topLen < search.length then false else wildcardLoop topic topLen search.length search 0 0

end NgxPlus.Mqtt

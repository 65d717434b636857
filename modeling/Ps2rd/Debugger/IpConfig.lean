import Ps2rd.CString.Basic
import Ps2rd.Lib.Region

/-!
# The network settings of the debugger

`set_debugger_opts` copies the strings of the loader's settings over those the debugger
has, and `get_ipconfig` packs them for the network driver.  The copy is `__strcpy`,
which writes no terminator.  So a string that is shorter than an earlier one in the
same field keeps the end of that one: the settings arrive exactly if none of the
strings set before, the defaults of `_init` included, is longer than the last one
(`reachesDriver_iff`).
-/

namespace Ps2rd.Debugger

open CString

/-! ### The functions -/

/-- The text of a setting: a string that fits into a field of 16 bytes. -/
structure IpString where
  str : List Byte
  nul : NUL ∉ str := by decide
  short : str.length ≤ 15 := by decide

/-- The three strings that a call of `set_debugger_opts` sets. -/
structure IpStrings where
  ip : IpString
  netmask : IpString
  gateway : IpString

/-- `struct _ip_config` -/
structure IpConfig where
  ip : CharArray 16
  netmask : CharArray 16
  gateway : CharArray 16

/-- `__strcpy`, that is `strncpy(dest, src, strlen(src))`. -/
def setField (dest : CharArray 16) (src : IpString) : CharArray 16 :=
  dest.strncpy src.str src.str.length (src.short.trans (by decide))

/-- `set_debugger_opts`, as far as the network settings go. -/
def setDebuggerOpts (c : IpConfig) (opts : IpStrings) : IpConfig where
  ip := setField c.ip opts.ip
  netmask := setField c.netmask opts.netmask
  gateway := setField c.gateway opts.gateway

/-- The strings `192.168.0.10`, `255.255.255.0` and `192.168.0.1`. -/
def defaultStrings : IpStrings where
  ip := { str := [0x31, 0x39, 0x32, 0x2e, 0x31, 0x36, 0x38, 0x2e, 0x30, 0x2e, 0x31, 0x30] }
  netmask :=
    { str := [0x32, 0x35, 0x35, 0x2e, 0x32, 0x35, 0x35, 0x2e, 0x32, 0x35, 0x35, 0x2e, 0x30] }
  gateway := { str := [0x31, 0x39, 0x32, 0x2e, 0x31, 0x36, 0x38, 0x2e, 0x30, 0x2e, 0x31] }

/-- A field of a static variable. -/
def zeroField : CharArray 16 := ⟨List.replicate 16 NUL, rfl⟩

/-- The settings after `_init`. -/
def initIpConfig : IpConfig := setDebuggerOpts ⟨zeroField, zeroField, zeroField⟩ defaultStrings

/-- `IPCONFIG_MAX_LEN` -/
def ipconfigMaxLen : ℕ := 64

/-- `g_ipconfig` and `g_ipconfig_len` -/
structure Packed where
  buf : Region Byte
  len : ℕ

/-- A string is added: `strncpy(&g_ipconfig[len], field, 15); len += strlen(field) + 1`. -/
def Packed.add (g : Packed) (field : CharArray 16) : Packed where
  buf := g.buf.write g.len (CString.strncpy [] field.val 15)
  len := g.len + (field.str.length + 1)

/-- `get_ipconfig` -/
def getIpconfig (c : IpConfig) (buf : Region Byte) : Packed :=
  (((⟨buf.write 0 (List.replicate ipconfigMaxLen NUL), 0⟩ : Packed).add c.ip).add
    c.netmask).add c.gateway

/-! ### What a field holds -/

/-- The byte of an array at an index. -/
def byteAt (field : CharArray 16) (k : ℕ) : Byte := field.val.getD k NUL

theorem val_setField (dest : CharArray 16) (src : IpString) :
    (setField dest src).val = src.str ++ dest.val.drop src.str.length := by
  show CString.strncpy dest.val src.str src.str.length = _
  rw [CString.strncpy, cstr_eq_self src.nul, List.take_length, Nat.sub_self, List.replicate_zero,
    List.append_nil]

/-- A byte of a string that was set, or what was there before. -/
theorem byteAt_setField (dest : CharArray 16) (src : IpString) (k : ℕ) :
    byteAt (setField dest src) k = src.str.getD k (byteAt dest k) := by
  unfold byteAt
  rw [val_setField]
  by_cases h : k < src.str.length
  · simp [h, List.getElem?_append_left h]
  · have hle : src.str.length ≤ k := Nat.le_of_not_lt h
    simp [List.getElem?_append_right hle, hle]

/-- The field after strings were set in it, the last one last. -/
def fieldAfter (strings : List IpString) : CharArray 16 := strings.foldl setField zeroField

theorem fieldAfter_append_singleton (strings : List IpString) (s : IpString) :
    fieldAfter (strings ++ [s]) = setField (fieldAfter strings) s := by
  simp [fieldAfter]

/-- A byte of a field is 0 when no string has reached it. -/
theorem byteAt_fieldAfter_eq_nul_iff (strings : List IpString) (k : ℕ) :
    byteAt (fieldAfter strings) k = NUL ↔ ∀ s ∈ strings, s.str.length ≤ k := by
  induction strings using List.reverseRecOn with
  | nil =>
      have hzero : byteAt zeroField k = NUL := by
        show (List.replicate 16 NUL).getD k NUL = NUL
        rw [List.getD_eq_getElem?_getD, List.getElem?_replicate]
        split_ifs <;> rfl
      simpa [fieldAfter] using hzero
  | append_singleton strings s ih =>
      rw [fieldAfter_append_singleton, byteAt_setField, List.forall_mem_append,
        List.forall_mem_singleton]
      by_cases h : k < s.str.length
      · -- the last string has a character there
        have hne : s.str[k] ≠ NUL := fun hnul => s.nul (hnul ▸ List.getElem_mem h)
        simp [hne, h]
      · have hle : s.str.length ≤ k := Nat.le_of_not_lt h
        simp [hle, ih]

/-- The string in a field, when `last` was set after the `earlier` ones. -/
theorem str_fieldAfter_eq_iff (earlier : List IpString) (last : IpString) :
    (fieldAfter (earlier ++ [last])).str = last.str ↔
      ∀ s ∈ earlier, s.str.length ≤ last.str.length := by
  rw [fieldAfter_append_singleton, ← byteAt_fieldAfter_eq_nul_iff, CharArray.str, val_setField,
    cstr_append last.nul, List.append_right_eq_self, cstr_drop_eq_nil_iff]
  rfl

/-- A field has its terminator. -/
theorem length_str_fieldAfter (strings : List IpString) :
    (fieldAfter strings).str.length ≤ 15 := by
  apply length_cstr_le
  apply (byteAt_fieldAfter_eq_nul_iff strings 15).mpr
  intro s _
  exact s.short

/-! ### Packing -/

/-- Strings one after the other, each with its terminator. -/
def packed (strings : List (List Byte)) : List Byte := strings.flatMap (· ++ [NUL])

/-- The buffer holds the strings, and NULs behind them. -/
structure Holds (g : Packed) (strings : List (List Byte)) : Prop where
  len : g.len = (packed strings).length
  buf : ∀ i < ipconfigMaxLen, g.buf i = (packed strings).getD i NUL

theorem packed_append_singleton (strings : List (List Byte)) (s : List Byte) :
    packed (strings ++ [s]) = packed strings ++ (s ++ [NUL]) := by
  simp [packed]

theorem strncpy_field {field : CharArray 16} (hshort : field.str.length ≤ 15) :
    CString.strncpy [] field.val 15 =
      field.str ++ List.replicate (15 - field.str.length) NUL := by
  show (field.str.take 15 ++ List.replicate (15 - field.str.length) NUL) ++ [].drop 15 = _
  rw [List.take_of_length_le hshort, List.drop_nil, List.append_nil]

/-- NULs behind a string make no difference. -/
theorem getD_append_nuls (s : List Byte) (n j : ℕ) :
    (s ++ List.replicate n NUL).getD j NUL = s.getD j NUL := by
  rcases Nat.lt_or_ge j s.length with hlt | hge
  · simp [List.getElem?_append_left hlt]
  · rw [List.getD_eq_getElem?_getD, List.getD_eq_getElem?_getD, List.getElem?_append_right hge,
      List.getElem?_replicate, List.getElem?_eq_none hge]
    split_ifs <;> rfl

/-- A string is added behind those that are there. -/
theorem Holds.add {g : Packed} {strings : List (List Byte)} (h : Holds g strings)
    {field : CharArray 16} (hshort : field.str.length ≤ 15) :
    Holds (g.add field) (strings ++ [field.str]) := by
  obtain ⟨hlen, hbuf⟩ := h
  refine ⟨?_, fun i hi => ?_⟩
  · simp [packed_append_singleton, Packed.add, hlen]
  · have hold := hbuf i hi
    show g.buf.write g.len (CString.strncpy [] field.val 15) i = _
    rw [packed_append_singleton, strncpy_field hshort, hlen]
    generalize packed strings = p at *
    rcases Nat.lt_or_ge i p.length with hbefore | hge
    · rw [Region.write_of_disjoint _ (.inl hbefore), hold]
      simp [hbefore, List.getElem?_append_left hbefore]
    · obtain ⟨j, rfl⟩ := Nat.exists_eq_add_of_le hge
      have hnul : p.getD (p.length + j) NUL = NUL := by simp
      have hright : (p ++ (field.str ++ [NUL])).getD (p.length + j) NUL =
          (field.str ++ List.replicate 1 NUL).getD j NUL := by
        simp [List.getElem?_append_right]
      rw [Region.write, if_pos hge, hold, hnul, Nat.add_sub_cancel_left, hright,
        getD_append_nuls, getD_append_nuls]

/-- Strings can be read back from where they are packed. -/
theorem packed_injective {ss ts : List (List Byte)} (hss : ∀ s ∈ ss, NUL ∉ s)
    (hts : ∀ t ∈ ts, NUL ∉ t) (h : packed ss = packed ts) : ss = ts := by
  induction ss generalizing ts with
  | nil =>
      cases ts with
      | nil => rfl
      | cons t ts => simp [packed] at h
  | cons s ss ih =>
      cases ts with
      | nil => simp [packed] at h
      | cons t ts =>
          rw [List.forall_mem_cons] at hss hts
          have h : s ++ NUL :: packed ss = t ++ NUL :: packed ts := by
            simpa [packed] using h
          have hst : s = t := by
            rw [← cstr_append_nul hss.1 (packed ss), h, cstr_append_nul hts.1]
          subst hst
          have hrest := List.cons.inj (List.append_cancel_left h)
          rw [ih hss.2 hts.2 hrest.2]

/-- The buffer determines the strings, if they do not fill it. -/
theorem Holds.unique {g : Packed} {ss ts : List (List Byte)} (h : Holds g ss) (h' : Holds g ts)
    (hss : ∀ s ∈ ss, NUL ∉ s) (hts : ∀ t ∈ ts, NUL ∉ t)
    (hroom : (packed ss).length ≤ ipconfigMaxLen) : ss = ts := by
  have hlen : (packed ss).length = (packed ts).length := h.len.symm.trans h'.len
  apply packed_injective hss hts
  refine List.ext_getElem hlen fun i hi hi' => ?_
  have hbyte := (h.buf i (hi.trans_le hroom)).symm.trans (h'.buf i (hi.trans_le hroom))
  simpa [hi, hi'] using hbyte

/-! ### A sequence of calls -/

/-- The settings after `_init` and calls of `set_debugger_opts`. -/
def configAfter (calls : List IpStrings) : IpConfig := calls.foldl setDebuggerOpts initIpConfig

section

variable (field : IpConfig → CharArray 16) (text : IpStrings → IpString)
  (hset : ∀ c opts, field (setDebuggerOpts c opts) = setField (field c) (text opts))
  (hzero : field ⟨zeroField, zeroField, zeroField⟩ = zeroField)

include hset hzero

/-- A field after calls, in terms of the strings that were set in it. -/
theorem field_configAfter (calls : List IpStrings) :
    field (configAfter calls) = fieldAfter ((defaultStrings :: calls).map text) := by
  have hinit : field initIpConfig = setField zeroField (text defaultStrings) := by
    rw [initIpConfig, hset, hzero]
  rw [configAfter, fieldAfter, List.foldl_map, List.foldl_cons, ← hinit]
  exact (List.foldl_hom field fun c opts => (hset c opts).symm).symm

theorem length_str_field (calls : List IpStrings) :
    (field (configAfter calls)).str.length ≤ 15 := by
  rw [field_configAfter field text hset hzero]
  exact length_str_fieldAfter _

/-- A field holds the string of the last call if no earlier one is longer. -/
theorem str_field_eq_iff (calls : List IpStrings) (last : IpStrings) :
    (field (configAfter (calls ++ [last]))).str = (text last).str ↔
      ∀ earlier ∈ defaultStrings :: calls,
        (text earlier).str.length ≤ (text last).str.length := by
  rw [field_configAfter field text hset hzero, ← List.cons_append, List.map_append,
    List.map_singleton, str_fieldAfter_eq_iff, List.forall_mem_map]

end

/-- The driver gets the strings of the last call: `g_ipconfig` holds them, each with one NUL,
and `g_ipconfig_len` is their length. -/
structure ReachesDriver (calls : List IpStrings) (last : IpStrings) (buf : Region Byte) : Prop where
  len : (getIpconfig (configAfter (calls ++ [last])) buf).len =
    last.ip.str.length + last.netmask.str.length + last.gateway.str.length + 3
  buf : ∀ i < ipconfigMaxLen, (getIpconfig (configAfter (calls ++ [last])) buf).buf i =
    (packed [last.ip.str, last.netmask.str, last.gateway.str]).getD i NUL

/-- No string is longer than the one that replaces it. -/
structure IpStrings.NoLonger (earlier last : IpStrings) : Prop where
  ip : earlier.ip.str.length ≤ last.ip.str.length
  netmask : earlier.netmask.str.length ≤ last.netmask.str.length
  gateway : earlier.gateway.str.length ≤ last.gateway.str.length

/-- `get_ipconfig` packs what the three fields hold. -/
theorem holds_getIpconfig (calls : List IpStrings) (buf : Region Byte) :
    Holds (getIpconfig (configAfter calls) buf)
      [(configAfter calls).ip.str, (configAfter calls).netmask.str,
        (configAfter calls).gateway.str] := by
  have hstart : Holds ⟨buf.write 0 (List.replicate ipconfigMaxLen NUL), 0⟩ [] := by
    refine ⟨rfl, fun i hi => ?_⟩
    show buf.write 0 (List.replicate ipconfigMaxLen NUL) i = _
    rw [Region.write_of_mem _ (Nat.zero_le i) (by simpa using hi), List.getElem_replicate]
    rfl
  have hip := length_str_field IpConfig.ip IpStrings.ip (fun _ _ => rfl) rfl calls
  have hnetmask := length_str_field IpConfig.netmask IpStrings.netmask (fun _ _ => rfl) rfl calls
  have hgateway := length_str_field IpConfig.gateway IpStrings.gateway (fun _ _ => rfl) rfl calls
  exact ((hstart.add hip).add hnetmask).add hgateway

/-- The settings of the last call reach the driver exactly if no default and no string of
an earlier call is longer. -/
theorem reachesDriver_iff (calls : List IpStrings) (last : IpStrings) (buf : Region Byte) :
    ReachesDriver calls last buf ↔ ∀ earlier ∈ defaultStrings :: calls, earlier.NoLonger last := by
  have hip := str_field_eq_iff IpConfig.ip IpStrings.ip (fun _ _ => rfl) rfl calls last
  have hnetmask := str_field_eq_iff IpConfig.netmask IpStrings.netmask (fun _ _ => rfl) rfl
    calls last
  have hgateway := str_field_eq_iff IpConfig.gateway IpStrings.gateway (fun _ _ => rfl) rfl
    calls last
  have hholds := holds_getIpconfig (calls ++ [last]) buf
  constructor
  · rintro ⟨hlen, hbuf⟩
    have hlast : Holds (getIpconfig (configAfter (calls ++ [last])) buf)
        [last.ip.str, last.netmask.str, last.gateway.str] := by
      refine ⟨?_, hbuf⟩
      rw [hlen]
      simp [packed]
      omega
    have hroom : (packed [last.ip.str, last.netmask.str, last.gateway.str]).length ≤
        ipconfigMaxLen := by
      have hshort := last.ip.short
      have hshort' := last.netmask.short
      have hshort'' := last.gateway.short
      simp [packed, ipconfigMaxLen]
      omega
    have hequal := hlast.unique hholds (by simp [last.ip.nul, last.netmask.nul, last.gateway.nul])
      (by simp [CharArray.str, nul_notMem_cstr]) hroom
    simp only [List.cons.injEq, and_true] at hequal
    obtain ⟨heq, heq', heq''⟩ := hequal
    intro earlier hearlier
    exact ⟨hip.mp heq.symm earlier hearlier, hnetmask.mp heq'.symm earlier hearlier,
      hgateway.mp heq''.symm earlier hearlier⟩
  · intro hall
    rw [hip.mpr fun e he => (hall e he).ip, hnetmask.mpr fun e he => (hall e he).netmask,
      hgateway.mpr fun e he => (hall e he).gateway] at hholds
    refine ⟨?_, hholds.buf⟩
    rw [hholds.len]
    simp [packed]
    omega

/-- The address `10.0.0.1` over the longer default arrives as `10.0.0.10.10`. -/
theorem not_reachesDriver_shorter : ¬ ReachesDriver []
    { defaultStrings with ip := { str := [0x31, 0x30, 0x2e, 0x30, 0x2e, 0x30, 0x2e, 0x31] } }
    (fun _ => NUL) := by
  intro h
  have hlen := h.len
  revert hlen
  decide

end Ps2rd.Debugger

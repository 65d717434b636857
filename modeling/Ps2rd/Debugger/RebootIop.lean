import Ps2rd.Debugger.Romdir
import Ps2rd.Lib.While
import Ps2rd.Ntpb.Dump

/-!
# Sending an IOPRP image with another EESYNC

`MySifRebootIop` reads the image in parts of up to 80 KiB into `g_buf` and sends each
part to the IOP.  On the way it writes the debugger's own EESYNC module over the one in
the image, wherever the module lies relative to the parts.

* `replaceEesync_spec`: what happens to one part,
* `exists_mySifRebootIop`: the data that arrive are the image with the module written over
  it from the offset on, or from 0 on if the offset is negative.

So the module arrives in the right place if `Get_Mod_Offset` has found it
(`eesync_spliced`).  But the result -1 for a missing module is taken for an offset,
too, and the image is damaged at its start (`passesOn_iff`).
-/

namespace Ps2rd.Debugger

open CString (NUL)
open Ntpb (bufSize)

/-! ### The function -/

/-- The text `EESYNC`. -/
def eesyncName : List Byte := [0x45, 0x45, 0x53, 0x59, 0x4e, 0x43]

/-- The variables of the loop that sends the image.  `iop` is the memory of the IOP behind
`ioprp_dest`. -/
structure Reboot where
  rpos : ℤ
  ioprpOffset : ℤ
  eesyncSize : ℤ
  eesyncOffset : ℤ
  gBuf : Region Byte
  iop : Region Byte

/-- After the first read, EESYNC is located in the image and in kernel RAM; `eesync` is what
`get_module_by_hash` finds there, empty if it finds nothing. -/
def locateEesync (fuel : ℕ) (eesync : List Byte) (s : Reboot) : Option Reboot :=
  if s.rpos = 0 then
    (getModOffset fuel s.gBuf eesyncName).map fun offset =>
      { s with ioprpOffset := offset.toInt, eesyncSize := eesync.length }
  else some s

/-- The part of the module that falls into the `rdSize` bytes of `g_buf` is copied there.
`none` stands for a copy that reads behind the module or writes behind those bytes. -/
def replaceEesync (eesync : List Byte) (rdSize : ℤ) (s : Reboot) : Option Reboot :=
  if s.rpos + rdSize ≥ s.ioprpOffset ∧ s.eesyncSize > 0 then
    let gbufOffset := s.ioprpOffset - s.rpos
    let gbufOffset := if gbufOffset < 0 then 0 else gbufOffset
    let rpSize := if rdSize - gbufOffset < s.eesyncSize then rdSize - gbufOffset else s.eesyncSize
    if rpSize = 0 ∨ 0 ≤ rpSize ∧ 0 ≤ s.eesyncOffset ∧
        s.eesyncOffset + rpSize ≤ eesync.length ∧ gbufOffset + rpSize ≤ rdSize then
      some { s with
        gBuf := s.gBuf.write gbufOffset.toNat
          ((eesync.drop s.eesyncOffset.toNat).take rpSize.toNat)
        eesyncOffset := s.eesyncOffset + (rdSize - gbufOffset)
        eesyncSize := s.eesyncSize - (rdSize - gbufOffset) }
    else none
  else some s

/-- One round of the loop: a part is read, changed and sent. -/
def sendPart (fuel : ℕ) (image eesync : List Byte) (s : Reboot) : Option Reboot :=
  let rdSize := if image.length - s.rpos > bufSize then bufSize else image.length - s.rpos
  let part := (image.drop s.rpos.toNat).take rdSize.toNat
  (locateEesync fuel eesync { s with gBuf := s.gBuf.write 0 part }).bind fun s =>
    (replaceEesync eesync rdSize s).map fun s =>
      { s with
        iop := s.iop.write s.rpos.toNat (s.gBuf.read 0 rdSize.toNat)
        rpos := s.rpos + rdSize }

/-- `MySifRebootIop`, as far as it sends the image.  Returns the memory of the IOP. -/
def mySifRebootIop (fuel : ℕ) (image eesync : List Byte) (gBuf iop : Region Byte) :
    Option (Region Byte) :=
  (whileM (fun s => s.rpos < (image.length : ℤ)) (sendPart fuel image eesync) fuel
    ⟨0, 0, 0, 0, gBuf, iop⟩).map Reboot.iop

/-! ### What arrives -/

/-- Memory that holds the image. -/
def holding (image : List Byte) : Region Byte := fun i => image.getD i NUL

/-- The image with the module written over it from `off` on, as far as the image reaches. -/
def splice (off : ℕ) (eesync image : List Byte) : List Byte :=
  ((holding image).write off eesync).read 0 image.length

section

variable {image eesync : List Byte} {off : ℤ}

/-- The variables for EESYNC when `p` bytes of the image have been sent: either the module
starts at the current place or later, or `p - off` bytes of it were passed, or all of it. -/
structure Passing (eesync : List Byte) (off : ℤ) (p : ℕ)
    (ioprpOffset eesyncSize eesyncOffset : ℤ) : Prop where
  offset : ioprpOffset = off
  total : eesyncOffset + eesyncSize = eesync.length
  place : eesyncOffset = max 0 (p - max off 0) ∨ eesyncSize ≤ 0 ∧ max off 0 + eesync.length ≤ p

/-- A block that is written to a region, seen through a window of `rd` cells from `p` on: the part
of the block that falls into the window is written there. -/
theorem write_window {buf region : Region Byte} {block : List Byte} {o p rd : ℕ}
    (hbuf : ∀ i < rd, buf i = region (p + i)) :
    ∀ i < rd, buf.write (o - p)
      ((block.drop (p - o)).take (min (rd - (o - p)) (block.length - (p - o)))) i =
        region.write o block (p + i) := by
  intro i hi
  have hlength : ((block.drop (p - o)).take (min (rd - (o - p)) (block.length - (p - o)))).length =
      min (rd - (o - p)) (block.length - (p - o)) := by
    rw [List.length_take, List.length_drop]
    omega
  by_cases hin : o ≤ p + i ∧ p + i < o + block.length
  · have hlow : o - p ≤ i := by omega
    rw [Region.write_of_mem _ hlow (by omega), Region.write_of_mem _ hin.1 (by omega),
      List.getElem_take, List.getElem_drop]
    congr 1
    omega
  · rw [Region.write_of_disjoint _ (by omega), Region.write_of_disjoint _ (by omega), hbuf i hi]

/-- The part that is sent is that of the image with the module in it. -/
theorem replaceEesync_spec (image : List Byte) {p rd : ℕ} {s : Reboot} (hrpos : s.rpos = p)
    (h : Passing eesync off p s.ioprpOffset s.eesyncSize s.eesyncOffset)
    (hpart : ∀ i < rd, s.gBuf i = holding image (p + i)) :
    ∃ gBuf size offset, replaceEesync eesync rd s =
        some { s with gBuf := gBuf, eesyncSize := size, eesyncOffset := offset } ∧
      (∀ i < rd, gBuf i = (holding image).write off.toNat eesync (p + i)) ∧
      Passing eesync off (p + rd) s.ioprpOffset size offset := by
  obtain ⟨hoff, htotal, hplace⟩ := h
  obtain ⟨o, ho⟩ : ∃ o : ℕ, off.toNat = o := ⟨_, rfl⟩
  have hmax : max off 0 = o := by omega
  rw [hmax] at hplace
  rw [ho]
  by_cases hcond : s.rpos + rd ≥ s.ioprpOffset ∧ s.eesyncSize > 0
  · have hpassed : s.eesyncOffset = (p - o : ℕ) := by omega
    have hreach : o ≤ p + rd := by omega
    set g : ℤ := if s.ioprpOffset - s.rpos < 0 then 0 else s.ioprpOffset - s.rpos with hg
    set n : ℤ := if rd - g < s.eesyncSize then rd - g else s.eesyncSize with hn
    have hgval : g = (o - p : ℕ) := by
      rw [hg]
      split_ifs <;> omega
    have hnval : n = (min (rd - (o - p)) (eesync.length - (p - o)) : ℕ) := by
      rw [hn]
      split_ifs <;> omega
    have hinside : n = 0 ∨ 0 ≤ n ∧ 0 ≤ s.eesyncOffset ∧
        s.eesyncOffset + n ≤ eesync.length ∧ g + n ≤ rd := by
      clear hplace
      omega
    refine ⟨s.gBuf.write g.toNat ((eesync.drop s.eesyncOffset.toNat).take n.toNat),
      s.eesyncSize - (rd - g), s.eesyncOffset + (rd - g), ?_, ?_, hoff, by omega, ?_⟩
    · simp only [replaceEesync, if_pos hcond, ← hg, ← hn, if_pos hinside]
    · rw [hgval, hnval, hpassed, Int.toNat_natCast, Int.toNat_natCast, Int.toNat_natCast]
      exact write_window hpart
    · rw [hmax]
      omega
  · refine ⟨s.gBuf, s.eesyncSize, s.eesyncOffset, by rw [replaceEesync, if_neg hcond],
      fun i hi => ?_, hoff, htotal, ?_⟩
    · rw [Region.write_of_disjoint _ (by omega), hpart i hi]
    · rw [hmax]
      omega

/-- The loop after `p` bytes. -/
structure Sent (image eesync : List Byte) (off : ℤ) (p : ℕ) (s : Reboot) : Prop where
  rpos : s.rpos = p
  passing : 0 < p → Passing eesync off p s.ioprpOffset s.eesyncSize s.eesyncOffset
  start : p = 0 → s.eesyncOffset = 0
  arrived : ∀ i < p, s.iop i = (holding image).write off.toNat eesync i

/-- The bytes of a part, as they are read into `g_buf`. -/
theorem write_part (gBuf : Region Byte) {p rd i : ℕ} (hrd : p + rd ≤ image.length) (hi : i < rd) :
    gBuf.write 0 ((image.drop p).take rd) i = holding image (p + i) := by
  have hlt : i - 0 < ((image.drop p).take rd).length := by
    rw [List.length_take, List.length_drop]
    omega
  rw [Region.write_of_mem _ (Nat.zero_le i) hlt, List.getElem_take, List.getElem_drop, holding]
  simp [show p + i < image.length by omega]

/-- Before the first part is changed, EESYNC has been located. -/
theorem locateEesync_spec {fuel p : ℕ} {s : Reboot} {found : Word} (hrpos : s.rpos = p)
    (hpassing : 0 < p → Passing eesync found.toInt p s.ioprpOffset s.eesyncSize s.eesyncOffset)
    (hstart : p = 0 → s.eesyncOffset = 0)
    (hfind : p = 0 → getModOffset fuel s.gBuf eesyncName = some found) :
    ∃ offset size, locateEesync fuel eesync s =
        some { s with ioprpOffset := offset, eesyncSize := size } ∧
      Passing eesync found.toInt p offset size s.eesyncOffset := by
  rcases Nat.eq_zero_or_pos p with rfl | hpos
  · refine ⟨found.toInt, eesync.length, ?_, rfl, ?_, ?_⟩
    · rw [locateEesync, if_pos (by simpa using hrpos), hfind rfl]
      rfl
    · simp [hstart rfl]
    · left
      simp [hstart rfl]
  · refine ⟨s.ioprpOffset, s.eesyncSize, ?_, hpassing hpos⟩
    rw [locateEesync, if_neg (by omega)]

/-- One round sends the next part. -/
theorem sendPart_spec {fuel p : ℕ} {s : Reboot} {found : Word}
    (h : Sent image eesync found.toInt p s) (hp : p < image.length)
    (hfind : p = 0 → getModOffset fuel (s.gBuf.write 0 (image.take bufSize.toNat)) eesyncName =
      some found) :
    ∃ s' p', sendPart fuel image eesync s = some s' ∧ p < p' ∧ p' ≤ image.length ∧
      Sent image eesync found.toInt p' s' := by
  have hbuf : bufSize = 81920 := rfl
  obtain ⟨rpos, ioprpOffset, eesyncSize, eesyncOffset, gBuf, iop⟩ := s
  obtain ⟨hrpos, hpassing, hstart, harrived⟩ := h
  dsimp only at hrpos hpassing hstart harrived hfind
  subst hrpos
  obtain ⟨rd, hrd⟩ : ∃ rd : ℕ, rd = min 81920 (image.length - p) := ⟨_, rfl⟩
  have hsize : (if (image.length : ℤ) - p > bufSize then bufSize else (image.length : ℤ) - p) =
      rd := by
    split_ifs <;> omega
  have hfirst : p = 0 → getModOffset fuel (gBuf.write 0 ((image.drop p).take rd)) eesyncName =
      some found := by
    rintro rfl
    have htake : (image.drop 0).take rd = image.take bufSize.toNat := by
      rw [List.drop_zero, hrd, hbuf, List.take_eq_take_iff]
      omega
    rw [htake]
    exact hfind rfl
  obtain ⟨offset, size, hlocate, hpassing⟩ := locateEesync_spec
    (s := ⟨p, ioprpOffset, eesyncSize, eesyncOffset, gBuf.write 0 ((image.drop p).take rd), iop⟩)
    rfl hpassing hstart hfirst
  have hread : ∀ i < rd, gBuf.write 0 ((image.drop p).take rd) i = holding image (p + i) :=
    fun i hi => write_part gBuf (by omega) hi
  obtain ⟨gBuf', size', offset', hreplace, hbytes, hpassing'⟩ := replaceEesync_spec image
    (s := ⟨p, offset, size, eesyncOffset, gBuf.write 0 ((image.drop p).take rd), iop⟩)
    rfl hpassing hread
  refine ⟨⟨p + rd, offset, size', offset', gBuf', iop.write p (gBuf'.read 0 rd)⟩, p + rd, ?_,
    by omega, by omega, (Nat.cast_add p rd).symm, fun _ => hpassing', by omega, fun i hi => ?_⟩
  · simp only [sendPart, hsize, Int.toNat_natCast, hlocate, hreplace, Option.bind_some,
      Option.map_some]
  · -- a byte of an earlier part, or of the one that is sent now
    dsimp only
    rcases Nat.lt_or_ge i p with hlt | hge
    · rw [Region.write_of_disjoint _ (.inl hlt), harrived i hlt]
    · rw [Region.write_of_mem _ hge (by simp; omega), Region.getElem_read, Nat.zero_add,
        hbytes _ (by omega), Nat.add_sub_of_le hge]

/-- The loop sends the rest of the image. -/
theorem whileM_sendPart {inner p : ℕ} {s : Reboot} {found : Word}
    (h : Sent image eesync found.toInt p s) (hp : p ≤ image.length)
    (hfind : p = 0 → getModOffset inner (s.gBuf.write 0 (image.take bufSize.toNat)) eesyncName =
      some found) {fuel : ℕ} (hfuel : image.length - p < fuel) :
    ∃ s', whileM (fun s => s.rpos < (image.length : ℤ)) (sendPart inner image eesync) fuel s =
        some s' ∧ Sent image eesync found.toInt image.length s' := by
  induction fuel generalizing p s with
  | zero => omega
  | succ fuel ih =>
      rcases hp.eq_or_lt with rfl | hlt
      · exact ⟨s, whileM_of_not (by simp [h.rpos]) _, h⟩
      · obtain ⟨s', p', hbody, hpos, hle, hsent⟩ := sendPart_spec h hlt hfind
        rw [whileM_of_body (by simpa [h.rpos] using hlt) hbody]
        exact ih hsent hle (by omega) (by omega)

end

/-- What stands in `g_buf` and behind it when the directory is searched.  Where the directory
of the image ends within the first 80 KiB, these are its entries. -/
def firstRead (gBuf : Region Byte) (image : List Byte) : Region Byte :=
  gBuf.write 0 (image.take bufSize.toNat)

section

variable {image eesync : List Byte} {gBuf iop : Region Byte}

/-- The image arrives with the module written over it from the offset on. -/
theorem exists_mySifRebootIop (eesync : List Byte) (iop : Region Byte) {fuel : ℕ} {found : Word}
    (hfind : getModOffset fuel (firstRead gBuf image) eesyncName = some found) :
    ∃ fuel' iop', mySifRebootIop fuel' image eesync gBuf iop = some iop' ∧
      ∀ i < image.length, iop' i = (holding image).write found.toInt.toNat eesync i := by
  have hfuel : fuel ≤ fuel + image.length + 1 := by omega
  have hstart : Sent image eesync found.toInt 0 ⟨0, 0, 0, 0, gBuf, iop⟩ :=
    ⟨rfl, fun h => absurd h (lt_irrefl 0), fun _ => rfl, fun i hi => absurd hi (Nat.not_lt_zero i)⟩
  obtain ⟨s', hrun, hsent⟩ := whileM_sendPart hstart (Nat.zero_le _)
    (fun _ => getModOffsetFrom_mono hfuel hfind)
    (by omega : image.length - 0 < fuel + image.length + 1)
  exact ⟨_, s'.iop, by rw [mySifRebootIop, hrun]; rfl, hsent.arrived⟩

/-- EESYNC is replaced exactly where it was found, whatever part it lies in. -/
theorem eesync_spliced (image eesync : List Byte) (gBuf iop : Region Byte) {fuel : ℕ} {off : Word}
    (hfind : getModOffset fuel (firstRead gBuf image) eesyncName = some off)
    (hoff : 0 ≤ off.toInt) :
    ∃ fuel' iop', mySifRebootIop fuel' image eesync gBuf iop = some iop' ∧
      ∀ i < image.length, some (iop' i) =
        if off.toInt ≤ i ∧ i < off.toInt + eesync.length then eesync[i - off.toInt.toNat]?
        else image[i]? := by
  obtain ⟨fuel', iop', hrun, harrived⟩ := exists_mySifRebootIop eesync iop hfind
  refine ⟨fuel', iop', hrun, fun i hi => ?_⟩
  rw [harrived i hi]
  split_ifs with hin
  · have hlt : i - off.toInt.toNat < eesync.length := by omega
    rw [Region.write_of_mem _ (by omega) hlt, List.getElem?_eq_getElem hlt]
  · rw [Region.write_of_disjoint _ (by omega), holding, List.getElem?_eq_getElem hi]
    simp [hi]

end

/-- An entry of the directory. -/
def dirEntry (name : List Byte) (size : ℕ) : List Byte :=
  name ++ List.replicate (12 - name.length) NUL ++
    [BitVec.ofNat 8 size, BitVec.ofNat 8 (size / 256), BitVec.ofNat 8 (size / 65536), 0]

/-- The text `SYSMEM`. -/
def sysmemName : List Byte := [0x53, 0x59, 0x53, 0x4d, 0x45, 0x4d]

/-- A directory with SYSMEM before EESYNC, which begins 16 bytes before the end of the first
80 KiB. -/
def longDirectory : List Byte :=
  dirEntry [0x52, 0x45, 0x53, 0x45, 0x54] 0 ++ dirEntry [0x52, 0x4f, 0x4d, 0x44, 0x49, 0x52] 80 ++
    dirEntry sysmemName 81824 ++ dirEntry eesyncName 20

def longImage : List Byte := longDirectory ++ List.replicate 81900 NUL

theorem length_longImage : longImage.length = 81964 := by
  rw [longImage, List.length_append, List.length_replicate]
  rfl

/-- Behind the directory there is nothing but zeros. -/
theorem getElem?_longImage {i : ℕ} (hi : i < 81964) :
    longImage[i]? = some (longDirectory.getD i NUL) := by
  have hlen : longDirectory.length = 64 := rfl
  rw [longImage, List.getElem?_append, List.getD_eq_getElem?_getD]
  split_ifs with hlt
  · rw [List.getElem?_eq_getElem hlt, Option.getD_some]
  · rw [List.getElem?_replicate, if_pos (by omega), List.getElem?_eq_none (not_lt.mp hlt),
      Option.getD_none]

theorem firstRead_longImage :
    firstRead (fun _ => NUL) longImage = fun i => longDirectory.getD i NUL := by
  have hlen : longDirectory.length = 64 := rfl
  have hbuf : bufSize.toNat = 81920 := rfl
  have htake : (longImage.take bufSize.toNat).length = 81920 := by
    rw [List.length_take, length_longImage]
    rfl
  funext i
  unfold firstRead
  rcases Nat.lt_or_ge i 81920 with hlt | hge
  · have hget : (longImage.take bufSize.toNat)[i - 0]? = some (longDirectory.getD i NUL) := by
      rw [Nat.sub_zero, List.getElem?_take_of_lt (by omega), getElem?_longImage (by omega)]
    have hlt' : i - 0 < (longImage.take bufSize.toNat).length := by omega
    rw [List.getElem?_eq_getElem hlt'] at hget
    exact (Region.write_of_mem _ (Nat.zero_le i) hlt').trans (Option.some.inj hget)
  · refine (Region.write_of_disjoint _ (by omega)).trans ?_
    rw [List.getD_eq_getElem?_getD, List.getElem?_eq_none (by omega), Option.getD_none]

/-- The module that takes the place of EESYNC lies in both parts that the image is sent in. -/
theorem eesync_spliced_longImage :
    ∃ fuel iop', mySifRebootIop fuel longImage ((List.range 20).map (BitVec.ofNat 8 <| · + 1))
        (fun _ => NUL) (fun _ => NUL) = some iop' ∧
      iop' 81903 = NUL ∧ iop' 81904 = 1 ∧ iop' 81919 = 16 ∧ iop' 81920 = 17 ∧ iop' 81923 = 20 ∧
      iop' 81924 = NUL := by
  have hfind : getModOffset 5 (firstRead (fun _ => NUL) longImage) eesyncName = some 81904 := by
    rw [firstRead_longImage]
    decide +kernel
  obtain ⟨fuel, iop', hrun, harrived⟩ := eesync_spliced longImage
    ((List.range 20).map (BitVec.ofNat 8 <| · + 1)) (fun _ => NUL) (fun _ => NUL) hfind (by decide)
  rw [length_longImage] at harrived
  refine ⟨fuel, iop', hrun, ?_, ?_, ?_, ?_, ?_, ?_⟩ <;> refine Option.some.inj
    ((harrived _ (by norm_num)).trans ?_)
  · exact (if_neg (by decide)).trans (getElem?_longImage (by norm_num))
  · exact if_pos (by decide)
  · exact if_pos (by decide)
  · exact if_pos (by decide)
  · exact if_pos (by decide)
  · exact (if_neg (by decide)).trans (getElem?_longImage (by norm_num))

/-! ### An image without EESYNC -/

section

variable {image eesync : List Byte} {gBuf iop : Region Byte}

theorem locateEesync_mono {fuel fuel' : ℕ} (hfuel : fuel ≤ fuel') {s t : Reboot}
    (h : locateEesync fuel eesync s = some t) : locateEesync fuel' eesync s = some t := by
  unfold locateEesync at h ⊢
  split_ifs at h ⊢
  · obtain ⟨off, hoff, rfl⟩ := Option.map_eq_some_iff.mp h
    exact Option.map_eq_some_iff.mpr ⟨off, getModOffsetFrom_mono hfuel hoff, rfl⟩
  · exact h

theorem sendPart_mono {fuel fuel' : ℕ} (hfuel : fuel ≤ fuel') {s t : Reboot}
    (h : sendPart fuel image eesync s = some t) : sendPart fuel' image eesync s = some t := by
  obtain ⟨s', hlocate, hrest⟩ := Option.bind_eq_some_iff.mp h
  exact Option.bind_eq_some_iff.mpr ⟨s', locateEesync_mono hfuel hlocate, hrest⟩

theorem mySifRebootIop_mono {fuel fuel' : ℕ} (hfuel : fuel ≤ fuel') {r : Region Byte}
    (h : mySifRebootIop fuel image eesync gBuf iop = some r) :
    mySifRebootIop fuel' image eesync gBuf iop = some r := by
  obtain ⟨s, hs, rfl⟩ := Option.map_eq_some_iff.mp h
  exact Option.map_eq_some_iff.mpr ⟨s, whileM_mono (fun _ _ => sendPart_mono hfuel) hfuel hs, rfl⟩

/-- What arrives does not depend on the fuel. -/
theorem mySifRebootIop_unique {fuel fuel' : ℕ} {r r' : Region Byte}
    (h : mySifRebootIop fuel image eesync gBuf iop = some r)
    (h' : mySifRebootIop fuel' image eesync gBuf iop = some r') : r = r' := by
  have hmax := mySifRebootIop_mono (le_max_left fuel fuel') h
  have hmax' := mySifRebootIop_mono (le_max_right fuel fuel') h'
  exact Option.some.inj (hmax.symm.trans hmax')

/-- The data that arrive are the image. -/
def Arrives (image eesync : List Byte) (gBuf iop : Region Byte) : Prop :=
  ∃ fuel iop', mySifRebootIop fuel image eesync gBuf iop = some iop' ∧
    iop'.read 0 image.length = image

/-- The image arrives exactly if the module writes nothing new. -/
theorem arrives_iff {fuel : ℕ} {found : Word}
    (hfind : getModOffset fuel (firstRead gBuf image) eesyncName = some found) :
    Arrives image eesync gBuf iop ↔ splice found.toInt.toNat eesync image = image := by
  obtain ⟨fuel', iop', hrun, harrived⟩ := exists_mySifRebootIop eesync iop hfind
  have hread : iop'.read 0 image.length = splice found.toInt.toNat eesync image := by
    refine Region.read_congr fun i hi => ?_
    rw [Nat.zero_add]
    exact harrived i hi
  constructor
  · rintro ⟨fuel'', iop'', hrun', himage⟩
    rw [← hread, mySifRebootIop_unique hrun hrun', himage]
  · intro hsplice
    exact ⟨fuel', iop', hrun, hread.trans hsplice⟩

variable (image eesync gBuf iop) in
/-- What is expected of an image whose directory has `n` entries: it arrives as it is if
none of them is EESYNC, and the offset is that of the first one that is. -/
structure PassesOn (n : ℕ) : Prop where
  untouched : (∀ k < n, ¬ Named (firstRead gBuf image) eesyncName k) →
    Arrives image eesync gBuf iop
  offset : ∀ k, IsFirst (fun k => k < n ∧ Named (firstRead gBuf image) eesyncName k) (some k) →
    ∃ fuel, getModOffset fuel (firstRead gBuf image) eesyncName =
      some (BitVec.ofInt 32 (modPos (firstRead gBuf image) k))

variable (image eesync gBuf) in
/-- The first entry whose name begins with EESYNC does no harm: either the image has no EESYNC,
and the bytes that are written over it, from the offset of that entry or from 0 on if
there is none, are there already; or that entry has the same offset as EESYNC. -/
structure Harmless (n : ℕ) : Prop where
  untouched : (∀ k < n, ¬ Named (firstRead gBuf image) eesyncName k) →
    ∀ r, IsFirst (fun k => k < n ∧ StartsWith (firstRead gBuf image) eesyncName k) r →
      splice (r.elim 0 fun k => (BitVec.ofInt 32 (modPos (firstRead gBuf image) k)).toInt.toNat)
        eesync image = image
  offset : ∀ j k,
    IsFirst (fun k => k < n ∧ StartsWith (firstRead gBuf image) eesyncName k) (some j) →
    IsFirst (fun k => k < n ∧ Named (firstRead gBuf image) eesyncName k) (some k) →
    BitVec.ofInt 32 (modPos (firstRead gBuf image) j) =
      BitVec.ofInt 32 (modPos (firstRead gBuf image) k)

/-- The expectation is met exactly where the search stops at no wrong entry, and, without
EESYNC in the image, where the module changes nothing. -/
theorem passesOn_iff {n : ℕ} (hromdir : Romdir (firstRead gBuf image) n) :
    PassesOn image eesync gBuf iop n ↔ Harmless image eesync gBuf n := by
  obtain ⟨r, -, hfirst⟩ := isFirst_scan
    (P := fun k => StartsWith (firstRead gBuf image) eesyncName k) (n := n) fun k _ => rfl
  have hname : NUL ∉ eesyncName := by decide
  have hfind := getModOffset_eq hname hromdir hfirst 0
  have hpos : (r.elim (-1) fun k => BitVec.ofInt 32 (modPos (firstRead gBuf image) k)).toInt.toNat =
      r.elim 0 fun k => (BitVec.ofInt 32 (modPos (firstRead gBuf image) k)).toInt.toNat := by
    cases r with
    | none => rfl
    | some k => rfl
  have hunique : ∀ {fuel : ℕ} {v : Word},
      getModOffset fuel (firstRead gBuf image) eesyncName = some v →
      v = r.elim (-1) fun k => BitVec.ofInt 32 (modPos (firstRead gBuf image) k) := by
    intro fuel v hv
    have hmax := getModOffsetFrom_mono (le_max_left fuel (n + 1 + 0)) hv
    have hmax' := getModOffsetFrom_mono (le_max_right fuel (n + 1 + 0)) hfind
    exact Option.some.inj (hmax.symm.trans hmax')
  constructor
  · rintro ⟨huntouched, hoffset⟩
    constructor
    · intro hnone r' hr'
      obtain rfl := hr'.unique hfirst
      rw [← hpos]
      exact (arrives_iff hfind).mp (huntouched hnone)
    · intro j k hj hk
      obtain rfl := hj.unique hfirst
      obtain ⟨fuel, hv⟩ := hoffset k hk
      exact (hunique hv).symm
  · rintro ⟨huntouched, hoffset⟩
    constructor
    · intro hnone
      rw [arrives_iff hfind, hpos]
      exact huntouched hnone r hfirst
    · intro k hk
      obtain ⟨hlt, hnamed⟩ := hk.holds k rfl
      obtain ⟨j, hj, -⟩ := hfirst.least k ⟨hlt, .of_named hnamed⟩
      obtain rfl : r = some j := hj
      exact ⟨_, hfind.trans (congrArg some (hoffset j k hfirst hk))⟩

end

/-- An image with a module of four bytes behind its directory. -/
def sampleImage (name : List Byte) : List Byte :=
  dirEntry [0x52, 0x45, 0x53, 0x45, 0x54] 0 ++ dirEntry [0x52, 0x4f, 0x4d, 0x44, 0x49, 0x52] 64 ++
    dirEntry name 4 ++ List.replicate 16 NUL ++ [0x7f, 0x45, 0x4c, 0x46]

/-- In the sample with EESYNC the first entry that begins with this name has it. -/
theorem passesOn_iff_sample :
    PassesOn (sampleImage eesyncName) [1, 2] (fun _ => NUL) (fun _ => NUL) 3 := by
  refine (passesOn_iff ⟨by decide +kernel, by decide +kernel⟩).mpr ⟨fun hnone => ?_, ?_⟩
  · exact absurd (hnone 2 (by decide)) (by decide +kernel)
  · intro j k hj hk
    have hfirst : ∀ i < 2, ¬ StartsWith (firstRead (fun _ => NUL) (sampleImage eesyncName))
        eesyncName i := by decide +kernel
    obtain ⟨hj₃, hstarts⟩ := hj.holds j rfl
    obtain ⟨hk₃, hnamed⟩ := hk.holds k rfl
    have hj₂ : ¬ j < 2 := fun h => hfirst j h hstarts
    have hk₂ : ¬ k < 2 := fun h => hfirst k h (.of_named hnamed)
    obtain rfl : j = k := by omega
    rfl

/-- The sample with SYSMEM in place of EESYNC: a module of one byte is written over the
first byte of its directory. -/
theorem not_passesOn_sysmem :
    Romdir (firstRead (fun _ => NUL) (sampleImage sysmemName)) 3 ∧
      ¬ PassesOn (sampleImage sysmemName) [1] (fun _ => NUL) (fun _ => NUL) 3 := by
  refine ⟨⟨by decide +kernel, by decide +kernel⟩, fun h => ?_⟩
  have hfind : getModOffset 4 (firstRead (fun _ => NUL) (sampleImage sysmemName)) eesyncName =
      some (-1) := by
    decide +kernel
  have hsplice := (arrives_iff hfind).mp (h.untouched (by decide +kernel))
  exact absurd hsplice (by decide +kernel)

end Ps2rd.Debugger

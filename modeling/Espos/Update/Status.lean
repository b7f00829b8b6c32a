import Espos.Lib.JsonPieces
import Espos.Update.Manifest

-- `espos_ota_status_json`: what the status document says of the updater.

namespace Espos.Update

open Espos.Text Espos.JsonText
open Espos.Sk.Inbound (Cjson)

def STATUS_JSON_MAX : Nat := 2560

-- `espos_ota_port_info_t`
structure PortInfo where
  version : Buf 32
  project : Buf 32
  idf : Buf 32
  date : Buf 16
  time : Buf 16
  slot : Buf 17
  otherSlot : Buf 17
  state : Buf 16
  pendingVerify : Bool
  rolledBack : Bool
  otherVersion : Buf 32

-- What the document is printed of: the fields of `s`. `idfTarget` is CONFIG_IDF_TARGET.
structure StatusFields where
  idfTarget : Buf 16
  state : OtaState
  lastError : Buf 96
  avail : OtaBuild
  haveAvail : Bool
  received : UInt32
  total : UInt32
  lastCheckAt : UInt32
  nextCheckAt : UInt32
  confirmedThisBoot : Bool
  keyFp : Buf 17
  manifestUrl : Buf 168
  manifestEff : Buf 168
  channel : Buf 16
  autoCheck : Bool
  autoInstall : Bool

-- `espos_ota_state_name`
def OtaState.name : OtaState → CStr
  | .idle => lit "idle"
  | .checking => lit "checking"
  | .available => lit "available"
  | .downloading => lit "downloading"
  | .verifying => lit "verifying"
  | .ready => lit "ready"
  | .failed => lit "failed"

-- The loop of `json_str`, with `o` characters written of the `n` there is room for.
def jsonStrFrom (n : Nat) : Nat → CStr → CStr
  | _, [] => []
  | o, c :: src =>
    if o + 2 < n then
      if c = '"' ∨ c = '\\' then
        if n ≤ o + 3 then [] else '\\' :: c :: jsonStrFrom n (o + 2) src
      else if c.toNat < 0x20 then ' ' :: jsonStrFrom n (o + 1) src
      else c :: jsonStrFrom n (o + 1) src
    else []

def jsonStr (n : Nat) (src : CStr) : CStr :=
  jsonStrFrom n 0 src

def boolText (b : Bool) : CStr :=
  if b then lit "true" else lit "false"

namespace StatusFields

variable (f : StatusFields) (info : PortInfo) (now : UInt32)

-- The buffers of `espos_ota_status_json`.
def err : CStr := jsonStr 200 f.lastError.chars
def url : CStr := jsonStr 520 f.avail.url.chars
def notes : CStr := jsonStr 280 f.avail.notes.chars
def shownUrl : Buf 168 := if f.manifestEff.isEmpty then f.manifestUrl else f.manifestEff
def murl : CStr := jsonStr 340 f.shownUrl.chars

def keyFpText : Buf 20 :=
  if f.keyFp.isEmpty then .print (lit "null")
  else .print (lit "\"" ++ f.keyFp.chars ++ lit "\"")

def last : Buf 16 :=
  if f.lastCheckAt = 0 then .print (lit "null")
  else .print (decimal (now - f.lastCheckAt).toNat)

def next : Buf 16 :=
  if f.nextCheckAt ≠ 0 ∧ f.autoCheck then
    .print (decimalInt (f.nextCheckAt - now).toInt32.toInt)
  else .print (lit "null")

-- The lines of the first format.
def runningText : CStr :=
  lit "\"running\":\x7b\"version\":\"" ++ info.version.chars ++
  lit "\",\"project\":\"" ++ info.project.chars ++
  lit "\",\"target\":\"" ++ f.idfTarget.chars ++
  lit "\",\"slot\":\"" ++ info.slot.chars ++
  lit "\",\"image_state\":\"" ++ info.state.chars ++ lit "\"," ++
  lit "\"pending_verify\":" ++ boolText (info.pendingVerify && !f.confirmedThisBoot) ++
  lit ",\"confirmed\":" ++ boolText (f.confirmedThisBoot || !info.pendingVerify) ++
  lit ",\"other_slot\":\"" ++ info.otherSlot.chars ++
  lit "\",\"other_version\":\"" ++ info.otherVersion.chars ++
  lit "\",\"rolled_back\":" ++ boolText info.rolledBack ++ lit "," ++
  lit "\"built\":\"" ++ info.date.chars ++ lit " " ++ info.time.chars ++
  lit "\",\"idf\":\"" ++ info.idf.chars ++
  lit "\",\"key_fp\":" ++ f.keyFpText.chars ++ lit "\x7d,"

def manifestText : CStr :=
  lit "\"manifest\":\x7b\"url\":\"" ++ f.murl ++
  lit "\",\"channel\":\"" ++ f.channel.chars ++
  lit "\",\"auto_check\":" ++ boolText f.autoCheck ++
  lit ",\"auto_install\":" ++ boolText f.autoInstall ++ lit "," ++
  lit "\"last_check_s\":" ++ (f.last now).chars ++
  lit ",\"next_check_s\":" ++ (f.next now).chars ++ lit "\x7d,"

def progressText : CStr :=
  lit "\"progress\":\x7b\"received\":" ++ decimal f.received.toNat ++
  lit ",\"total\":" ++ decimal f.total.toNat ++ lit "\x7d"

def headText : CStr :=
  lit "\x7b\"state\":\"" ++ f.state.name ++ lit "\",\"last_error\":\"" ++ f.err ++ lit "\"," ++
  f.runningText info ++ f.manifestText now ++ f.progressText

def availableText : CStr :=
  if f.haveAvail then
    lit ",\"available\":\x7b\"version\":\"" ++ f.avail.version.chars ++
    lit "\",\"url\":\"" ++ f.url ++
    lit "\",\"size\":" ++ decimal (f.avail.size % 2 ^ 32) ++
    lit ",\"sha256\":\"" ++ f.avail.sha256.chars ++
    lit "\",\"notes\":\"" ++ f.notes ++
    lit "\",\"newer\":" ++ boolText f.avail.newer ++ lit "\x7d"
  else lit ",\"available\":null"

-- `snprintf(out + n, STATUS_JSON_MAX - n, …)` with `n` clamped to the text that is there.
def appendText (out text : CStr) : CStr :=
  (out ++ text).take (STATUS_JSON_MAX - 1)

-- `none` where there is no memory for the text.
def statusJson (malloc : Bool) : Option CStr :=
  if malloc then
    some (appendText (appendText (appendText [] (f.headText info now)) f.availableText)
      (lit "\x7d"))
  else none

-- The document that is meant, with the texts as they are stored but for control characters.
def statusTree : Tree :=
  .object [
    (lit "state", .string f.state.name),
    (lit "last_error", .string (clean f.lastError.chars)),
    (lit "running", .object [
      (lit "version", .string (clean info.version.chars)),
      (lit "project", .string (clean info.project.chars)),
      (lit "target", .string (clean f.idfTarget.chars)),
      (lit "slot", .string (clean info.slot.chars)),
      (lit "image_state", .string (clean info.state.chars)),
      (lit "pending_verify", .bool (info.pendingVerify && !f.confirmedThisBoot)),
      (lit "confirmed", .bool (f.confirmedThisBoot || !info.pendingVerify)),
      (lit "other_slot", .string (clean info.otherSlot.chars)),
      (lit "other_version", .string (clean info.otherVersion.chars)),
      (lit "rolled_back", .bool info.rolledBack),
      (lit "built", .string (clean (info.date.chars ++ lit " " ++ info.time.chars))),
      (lit "idf", .string (clean info.idf.chars)),
      (lit "key_fp", if f.keyFp.isEmpty then .null else .string (clean f.keyFp.chars))]),
    (lit "manifest", .object [
      (lit "url", .string (clean f.shownUrl.chars)),
      (lit "channel", .string (clean f.channel.chars)),
      (lit "auto_check", .bool f.autoCheck),
      (lit "auto_install", .bool f.autoInstall),
      (lit "last_check_s", if f.lastCheckAt = 0 then .null
        else .number (decimal (now - f.lastCheckAt).toNat)),
      (lit "next_check_s", if f.nextCheckAt ≠ 0 ∧ f.autoCheck then
          .number (decimalInt (f.nextCheckAt - now).toInt32.toInt)
        else .null)]),
    (lit "progress", .object [
      (lit "received", .number (decimal f.received.toNat)),
      (lit "total", .number (decimal f.total.toNat))]),
    (lit "available", if f.haveAvail then
        .object [
          (lit "version", .string (clean f.avail.version.chars)),
          (lit "url", .string (clean f.avail.url.chars)),
          (lit "size", .number (decimal (f.avail.size % 2 ^ 32))),
          (lit "sha256", .string (clean f.avail.sha256.chars)),
          (lit "notes", .string (clean f.avail.notes.chars)),
          (lit "newer", .bool f.avail.newer)]
      else .null)]

-- The texts that are printed as they are.
def unescaped : List CStr :=
  [info.version.chars, info.project.chars, f.idfTarget.chars, info.slot.chars, info.state.chars,
    info.otherSlot.chars, info.otherVersion.chars,
    info.date.chars ++ lit " " ++ info.time.chars, info.idf.chars, f.keyFp.chars,
    f.channel.chars] ++
    if f.haveAvail then [f.avail.version.chars, f.avail.sha256.chars] else []

end StatusFields

section Fits

theorem body_jsonStrFrom {n o : Nat} {src : CStr} (h : o + 2 * src.length + 2 ≤ n) :
    Body (jsonStrFrom n o src) (clean src) := by
  induction src generalizing o with
  | nil => exact .nil
  | cons c src ih =>
    rw [List.length_cons] at h
    rw [jsonStrFrom, if_pos (by omega)]
    by_cases hquoted : c = '"' ∨ c = '\\'
    · have hc : cleanChar c = c := by
        rcases hquoted with rfl | rfl
        all_goals decide
      have hshort : shorthand c = some c :=
        if_pos (hquoted.imp_right .inl)
      have hu : c ≠ 'u' := by
        rintro rfl
        exact absurd hquoted (by decide)
      rw [if_pos hquoted, if_neg (by omega)]
      have hbody := Body.short hu hshort (ih (o := o + 2) (by omega))
      rw [clean, List.map_cons, hc]
      exact hbody
    · obtain ⟨hquote, hslash⟩ := not_or.mp hquoted
      rw [if_neg hquoted]
      by_cases hcontrol : c.toNat < 0x20
      · have hc : cleanChar c = ' ' := if_pos hcontrol
        rw [if_pos hcontrol, clean, List.map_cons, hc]
        exact .plain (by decide) (by decide) (by decide) (ih (by omega))
      · rw [if_neg hcontrol, clean, List.map_cons, cleanChar_of_le (by omega)]
        exact .plain hquote hslash (by omega) (ih (by omega))

theorem length_jsonStrFrom_le (n o : Nat) (src : CStr) :
    (jsonStrFrom n o src).length ≤ 2 * src.length := by
  induction src generalizing o with
  | nil => exact Nat.le_refl _
  | cons c src ih =>
    have hnext := ih (o + 1)
    have hskip := ih (o + 2)
    rw [jsonStrFrom]
    split_ifs
    all_goals
      simp only [List.length_cons, List.length_nil]
      omega

-- Escaped at the worst, a text still has room.
theorem body_jsonStr {size n : Nat} (b : Buf size) (h : 2 * (size - 1) + 2 ≤ n) :
    Body (jsonStr n b.chars) (clean b.chars) := by
  apply body_jsonStrFrom
  have hfits := b.fits
  omega

theorem length_jsonStr_le {size : Nat} (n : Nat) (b : Buf size) :
    (jsonStr n b.chars).length ≤ 2 * (size - 1) :=
  (length_jsonStrFrom_le n 0 b.chars).trans (Nat.mul_le_mul_left 2 b.fits)

theorem length_decimal_le {n : Nat} (h : n < 2 ^ 32) : (decimal n).length ≤ 10 := by
  have hdigits : n < 10 ^ 10 := by omega
  exact (Nat.length_toDigits_le_iff (by decide) (by decide)).mpr hdigits

theorem length_decimalInt_le {i : Int} (hlow : -2 ^ 31 ≤ i) (hhigh : i < 2 ^ 31) :
    (decimalInt i).length ≤ 11 := by
  cases i with
  | ofNat n =>
    have hsmall : (n : Int) < 2 ^ 31 := hhigh
    have hdigits : (decimal n).length ≤ 10 := length_decimal_le (by omega)
    exact Nat.le_succ_of_le hdigits
  | negSucc n =>
    have hdigits : (decimal (n + 1)).length ≤ 10 := length_decimal_le (by omega)
    rw [decimalInt, List.length_cons]
    omega

theorem length_boolText_le (b : Bool) : (boolText b).length ≤ 5 := by
  cases b
  all_goals decide
theorem length_name_le (state : OtaState) : state.name.length ≤ 11 := by
  cases state
  all_goals decide

end Fits

section Document

def boolPiece (b : Bool) : Piece :=
  .word (boolText b) (.bool b)

def numberPiece (i : Int) : Piece :=
  .word (decimalInt i) (.number (decimalInt i))

def nullPiece : Piece :=
  .word (lit "null") .null

-- A text that is printed as it is.
def given (text : CStr) : Piece :=
  .string text (clean text)

namespace StatusFields

variable (f : StatusFields) (info : PortInfo) (now : UInt32)

def keyFpPiece : Piece :=
  if f.keyFp.isEmpty then nullPiece else given f.keyFp.chars

def lastPiece : Piece :=
  if f.lastCheckAt = 0 then nullPiece else numberPiece (now - f.lastCheckAt).toNat

def nextPiece : Piece :=
  if f.nextCheckAt ≠ 0 ∧ f.autoCheck then numberPiece (f.nextCheckAt - now).toInt32.toInt
  else nullPiece

def runningMembers : List (CStr × Piece) :=
  [(lit "version", given info.version.chars),
    (lit "project", given info.project.chars),
    (lit "target", given f.idfTarget.chars),
    (lit "slot", given info.slot.chars),
    (lit "image_state", given info.state.chars),
    (lit "pending_verify", boolPiece (info.pendingVerify && !f.confirmedThisBoot)),
    (lit "confirmed", boolPiece (f.confirmedThisBoot || !info.pendingVerify)),
    (lit "other_slot", given info.otherSlot.chars),
    (lit "other_version", given info.otherVersion.chars),
    (lit "rolled_back", boolPiece info.rolledBack),
    (lit "built", given (info.date.chars ++ lit " " ++ info.time.chars)),
    (lit "idf", given info.idf.chars),
    (lit "key_fp", f.keyFpPiece)]

def manifestMembers : List (CStr × Piece) :=
  [(lit "url", .string f.murl (clean f.shownUrl.chars)),
    (lit "channel", given f.channel.chars),
    (lit "auto_check", boolPiece f.autoCheck),
    (lit "auto_install", boolPiece f.autoInstall),
    (lit "last_check_s", f.lastPiece now),
    (lit "next_check_s", f.nextPiece now)]

def progressMembers : List (CStr × Piece) :=
  [(lit "received", numberPiece f.received.toNat), (lit "total", numberPiece f.total.toNat)]

def buildMembers : List (CStr × Piece) :=
  [(lit "version", given f.avail.version.chars),
    (lit "url", .string f.url (clean f.avail.url.chars)),
    (lit "size", numberPiece (f.avail.size % 2 ^ 32 : Nat)),
    (lit "sha256", given f.avail.sha256.chars),
    (lit "notes", .string f.notes (clean f.avail.notes.chars)),
    (lit "newer", boolPiece f.avail.newer)]

def availablePiece : Piece :=
  if f.haveAvail then .object f.buildMembers else nullPiece

def statusMembers : List (CStr × Piece) :=
  [(lit "state", .string f.state.name f.state.name),
    (lit "last_error", .string f.err (clean f.lastError.chars)),
    (lit "running", .object (f.runningMembers info)),
    (lit "manifest", .object (f.manifestMembers now)),
    (lit "progress", .object f.progressMembers),
    (lit "available", f.availablePiece)]

theorem keyFpPiece_text : f.keyFpPiece.text = f.keyFpText.chars := by
  unfold keyFpPiece keyFpText
  by_cases h : f.keyFp.isEmpty = true
  · rw [if_pos h, if_pos h]
    rfl
  · rw [if_neg h, if_neg h]
    have hfits : (lit "\"" ++ f.keyFp.chars ++ lit "\"").length ≤ 20 - 1 := by
      have hkey := f.keyFp.fits
      have hquote : (lit "\"").length = 1 := by decide
      simp only [List.length_append, hquote]
      omega
    exact (List.take_of_length_le hfits).symm

theorem lastPiece_text : (f.lastPiece now).text = (f.last now).chars := by
  unfold lastPiece last
  by_cases h : f.lastCheckAt = 0
  · rw [if_pos h, if_pos h]
    rfl
  · rw [if_neg h, if_neg h]
    have hfits : (decimal (now - f.lastCheckAt).toNat).length ≤ 16 - 1 :=
      (length_decimal_le (now - f.lastCheckAt).toNat_lt).trans (by decide)
    exact (List.take_of_length_le hfits).symm

theorem nextPiece_text : (f.nextPiece now).text = (f.next now).chars := by
  unfold nextPiece next
  by_cases h : f.nextCheckAt ≠ 0 ∧ f.autoCheck
  · rw [if_pos h, if_pos h]
    have hfits : (decimalInt (f.nextCheckAt - now).toInt32.toInt).length ≤ 16 - 1 := by
      have hlow := (f.nextCheckAt - now).toInt32.le_toInt
      have hhigh := (f.nextCheckAt - now).toInt32.toInt_lt
      exact (length_decimalInt_le hlow hhigh).trans (by decide)
    exact (List.take_of_length_le hfits).symm
  · rw [if_neg h, if_neg h]
    rfl

set_option maxRecDepth 2000 in
theorem running_text : lit "\"running\":" ++ (Piece.object (f.runningMembers info)).text ++
    lit "," = f.runningText info := by
  unfold runningText
  simp only [Piece.text, membersText, runningMembers, given, boolPiece, keyFpPiece_text,
    List.append_assoc, List.cons_append, List.nil_append]
  rfl

theorem manifest_text : lit "\"manifest\":" ++ (Piece.object (f.manifestMembers now)).text ++
    lit "," = f.manifestText now := by
  simp only [manifestText, Piece.text, membersText, manifestMembers, given, boolPiece,
    lastPiece_text, nextPiece_text, List.append_assoc, List.cons_append, List.nil_append]
  rfl

theorem progress_text : lit "\"progress\":" ++ (Piece.object f.progressMembers).text =
    f.progressText := by
  simp only [progressText, Piece.text, membersText, progressMembers, numberPiece,
    List.append_assoc, List.cons_append, List.nil_append]
  rfl

theorem available_text : lit ",\"available\":" ++ f.availablePiece.text = f.availableText := by
  unfold availablePiece availableText
  cases f.haveAvail with
  | false => rfl
  | true =>
    simp only [if_true, Piece.text, membersText, buildMembers, given, numberPiece, boolPiece,
      List.append_assoc, List.cons_append, List.nil_append]
    rfl

theorem status_text : (Piece.object (f.statusMembers info now)).text =
    f.headText info now ++ f.availableText ++ lit "\x7d" := by
  rw [headText, ← running_text, ← manifest_text, ← progress_text, ← available_text]
  generalize hrunning : Piece.object (f.runningMembers info) = running
  generalize hmanifest : Piece.object (f.manifestMembers now) = manifest
  generalize hprogress : Piece.object f.progressMembers = progress
  rw [statusMembers, hrunning, hmanifest, hprogress]
  simp only [Piece.text, membersText, List.append_assoc, List.cons_append, List.nil_append]
  rfl

theorem length_running_le : (f.runningText info).length ≤ 500 := by
  have hversion := info.version.fits
  have hproject := info.project.fits
  have htarget := f.idfTarget.fits
  have hslot := info.slot.fits
  have hstate := info.state.fits
  have hother := info.otherSlot.fits
  have hotherVersion := info.otherVersion.fits
  have hdate := info.date.fits
  have htime := info.time.fits
  have hidf := info.idf.fits
  have hkey := f.keyFpText.fits
  have hpending := length_boolText_le (info.pendingVerify && !f.confirmedThisBoot)
  have hconfirmed := length_boolText_le (f.confirmedThisBoot || !info.pendingVerify)
  have hrolled := length_boolText_le info.rolledBack
  unfold runningText
  simp only [List.length_append]
  simp only [lit, String.reduceToList, List.length_cons, List.length_nil]
  omega

theorem length_manifest_le : (f.manifestText now).length ≤ 500 := by
  have hurl : f.murl.length ≤ 2 * 167 := length_jsonStr_le _ _
  have hchannel := f.channel.fits
  have hcheck := length_boolText_le f.autoCheck
  have hinstall := length_boolText_le f.autoInstall
  have hlast := (f.last now).fits
  have hnext := (f.next now).fits
  unfold manifestText
  simp only [List.length_append]
  simp only [lit, String.reduceToList, List.length_cons, List.length_nil]
  omega

theorem length_progress_le : f.progressText.length ≤ 60 := by
  have hreceived : (decimal f.received.toNat).length ≤ 10 := length_decimal_le f.received.toNat_lt
  have htotal : (decimal f.total.toNat).length ≤ 10 := length_decimal_le f.total.toNat_lt
  unfold progressText
  simp only [List.length_append]
  simp only [lit, String.reduceToList, List.length_cons, List.length_nil]
  omega

theorem length_head_le : (f.headText info now).length ≤ 1300 := by
  have hname := length_name_le f.state
  have herr : f.err.length ≤ 2 * 95 := length_jsonStr_le _ _
  have hrunning := f.length_running_le info
  have hmanifest := f.length_manifest_le now
  have hprogress := f.length_progress_le
  unfold headText
  simp only [List.length_append]
  simp only [lit, String.reduceToList, List.length_cons, List.length_nil]
  omega

theorem length_available_le : f.availableText.length ≤ 1000 := by
  unfold availableText
  cases f.haveAvail with
  | false =>
    rw [if_neg (by decide)]
    decide
  | true =>
    have hversion := f.avail.version.fits
    have hurl : f.url.length ≤ 2 * 255 := length_jsonStr_le _ _
    have hsize : (decimal (f.avail.size % 2 ^ 32)).length ≤ 10 :=
      length_decimal_le (Nat.mod_lt _ (by decide))
    have hsha := f.avail.sha256.fits
    have hnotes : f.notes.length ≤ 2 * 127 := length_jsonStr_le _ _
    have hnewer := length_boolText_le f.avail.newer
    rw [if_pos rfl]
    simp only [List.length_append]
    simp only [lit, String.reduceToList, List.length_cons, List.length_nil]
    simp only [ESPOS_OTA_VERSION_MAX] at hversion
    omega

theorem appendText_eq (out text : CStr) (h : (out ++ text).length < STATUS_JSON_MAX) :
    appendText out text = out ++ text :=
  List.take_of_length_le (Nat.le_sub_one_of_lt h)

theorem statusJson_eq : f.statusJson info now true =
    some (Piece.object (f.statusMembers info now)).text := by
  have hhead := f.length_head_le info now
  have havailable := f.length_available_le
  have hclose : (lit "\x7d").length = 1 := by decide
  have hfits : (f.headText info now ++ f.availableText).length < STATUS_JSON_MAX := by
    simp only [List.length_append, STATUS_JSON_MAX]
    omega
  have hwhole :
      (f.headText info now ++ f.availableText ++ lit "\x7d").length < STATUS_JSON_MAX := by
    simp only [List.length_append, STATUS_JSON_MAX]
    omega
  have hfirst : ([] ++ f.headText info now).length < STATUS_JSON_MAX := by
    simp only [List.nil_append, STATUS_JSON_MAX]
    omega
  rw [statusJson, if_pos rfl, status_text, appendText_eq _ _ hfirst, List.nil_append,
    appendText_eq _ _ hfits, appendText_eq _ _ hwhole]

theorem keyFpPiece_tree : f.keyFpPiece.tree =
    if f.keyFp.isEmpty then .null else .string (clean f.keyFp.chars) :=
  apply_ite Piece.tree _ _ _

theorem lastPiece_tree : (f.lastPiece now).tree =
    if f.lastCheckAt = 0 then .null else .number (decimal (now - f.lastCheckAt).toNat) :=
  apply_ite Piece.tree _ _ _

theorem nextPiece_tree : (f.nextPiece now).tree =
    if f.nextCheckAt ≠ 0 ∧ f.autoCheck then
      .number (decimalInt (f.nextCheckAt - now).toInt32.toInt)
    else .null :=
  apply_ite Piece.tree _ _ _

theorem status_tree : (Piece.object (f.statusMembers info now)).tree = f.statusTree info now := by
  unfold statusTree
  simp only [Piece.tree, membersTree, statusMembers, runningMembers, manifestMembers,
    progressMembers, given, boolPiece, numberPiece, keyFpPiece_tree, lastPiece_tree,
    nextPiece_tree]
  unfold availablePiece
  cases f.haveAvail with
  | false => rfl
  | true => rfl

theorem sound_word {text : CStr} {tree : Tree} (hne : text ≠ [])
    (hscalar : text.all isScalar = true) (htree : scalarTree text = some tree) :
    (Piece.word text tree).Sound :=
  ⟨hne, List.all_eq_true.mp hscalar, htree⟩

theorem sound_boolPiece (b : Bool) : (boolPiece b).Sound := by
  cases b
  all_goals exact sound_word (by decide) (by decide) rfl

theorem sound_numberPiece (i : Int) : (numberPiece i).Sound := by
  refine ⟨?_, isScalar_of_mem_decimalInt, scalarTree_decimalInt i⟩
  cases i with
  | ofNat n => exact Nat.toDigits_ne_nil
  | negSucc n => exact List.cons_ne_nil _ _

theorem sound_nullPiece : nullPiece.Sound :=
  sound_word (by decide) (by decide) rfl

theorem sound_given (text : CStr) : (given text).Sound :=
  trivial

theorem sound_ite {p : Prop} [Decidable p] {a b : Piece} (ha : a.Sound) (hb : b.Sound) :
    (if p then a else b).Sound := by
  by_cases h : p
  · rwa [if_pos h]
  · rwa [if_neg h]

theorem status_sound : (Piece.object (f.statusMembers info now)).Sound := by
  have hkey : f.keyFpPiece.Sound := sound_ite sound_nullPiece (sound_given _)
  have hlast : (f.lastPiece now).Sound := sound_ite sound_nullPiece (sound_numberPiece _)
  have hnext : (f.nextPiece now).Sound := sound_ite (sound_numberPiece _) sound_nullPiece
  have hbuild : (Piece.object f.buildMembers).Sound := by
    simp only [Piece.Sound, MembersSound, buildMembers, sound_numberPiece, sound_boolPiece,
      sound_given, and_true]
    decide
  have havailable : f.availablePiece.Sound := sound_ite hbuild sound_nullPiece
  simp only [Piece.Sound, MembersSound, statusMembers, runningMembers, manifestMembers,
    progressMembers, sound_numberPiece, sound_boolPiece, sound_given, hkey, hlast, hnext,
    havailable, and_true]
  decide

-- What holds of the strings that are escaped holds of all that are printed where it holds of
-- the others.
theorem status_prints {P : CStr × CStr → Prop} (hstate : P (f.state.name, f.state.name))
    (hescaped : ∀ text s, Body text s → P (text, s)) :
    (∀ q ∈ (Piece.object (f.statusMembers info now)).prints, P q) ↔
      ∀ text ∈ f.unescaped info, P (text, clean text) := by
  have herr : P (f.err, clean f.lastError.chars) :=
    hescaped _ _ (body_jsonStr _ (by decide))
  have hmurl : P (f.murl, clean f.shownUrl.chars) :=
    hescaped _ _ (body_jsonStr _ (by decide))
  have hurl : P (f.url, clean f.avail.url.chars) :=
    hescaped _ _ (body_jsonStr _ (by decide))
  have hnotes : P (f.notes, clean f.avail.notes.chars) :=
    hescaped _ _ (body_jsonStr _ (by decide))
  have hlast : (f.lastPiece now).prints = [] := by
    unfold lastPiece
    by_cases h : f.lastCheckAt = 0
    · rw [if_pos h]
      rfl
    · rw [if_neg h]
      rfl
  have hnext : (f.nextPiece now).prints = [] := by
    unfold nextPiece
    by_cases h : f.nextCheckAt ≠ 0 ∧ f.autoCheck
    · rw [if_pos h]
      rfl
    · rw [if_neg h]
      rfl
  have hkey : (∀ q ∈ f.keyFpPiece.prints, P q) ↔ P (f.keyFp.chars, clean f.keyFp.chars) := by
    unfold keyFpPiece
    by_cases h : f.keyFp.isEmpty = true
    · have hempty : f.keyFp.chars = [] := List.isEmpty_iff.mp h
      rw [if_pos h, hempty]
      simp only [nullPiece, Piece.prints, List.not_mem_nil, false_imp_iff, implies_true, true_iff]
      exact hescaped _ _ .nil
    · rw [if_neg h]
      exact List.forall_mem_singleton
  have hbuild : (∀ q ∈ f.availablePiece.prints, P q) ↔
      ∀ text ∈ if f.haveAvail then [f.avail.version.chars, f.avail.sha256.chars] else [],
        P (text, clean text) := by
    unfold availablePiece
    cases f.haveAvail with
    | false => simp [nullPiece, Piece.prints]
    | true =>
      simp [Piece.prints, membersPrints, buildMembers, given, numberPiece, boolPiece, hurl,
        hnotes]
  simp only [unescaped, Piece.prints, membersPrints, statusMembers, runningMembers,
    manifestMembers, progressMembers, given, numberPiece, boolPiece, hlast, hnext,
    List.forall_mem_append, List.forall_mem_cons, List.nil_append, List.append_nil, hkey, hbuild,
    hstate, herr, hmurl, true_and, List.not_mem_nil, false_imp_iff, implies_true, and_true,
    and_assoc]

theorem body_name (state : OtaState) : Body state.name state.name := by
  apply Verbatim.body
  cases state
  all_goals decide

-- The document says what is meant, as a whole, exactly where there is memory for it and the
-- texts that are not escaped need no escapes.
theorem status_json_iff (malloc : Bool) :
    (f.statusJson info now malloc).bind parse = some (f.statusTree info now) ↔
      malloc = true ∧ ∀ text ∈ f.unescaped info, Verbatim text := by
  cases malloc with
  | false => simp [statusJson]
  | true =>
    have hhonest : ∀ q ∈ (Piece.object (f.statusMembers info now)).prints, Honest q.1 q.2 :=
      (f.status_prints info now (honest_of_body (body_name _)) fun _ _ h =>
        honest_of_body h).mpr fun text _ => honest_clean text
    have hbodies : (∀ q ∈ (Piece.object (f.statusMembers info now)).prints, Body q.1 q.2) ↔
        ∀ text ∈ f.unescaped info, Body text (clean text) :=
      f.status_prints info now (body_name _) fun _ _ h => h
    rw [statusJson_eq, Option.bind_some, ← status_tree,
      parse_object_iff (f.status_sound info now) hhonest, hbodies]
    simp only [body_clean_iff, true_and]

end StatusFields

-- cJSON on a manifest whose build has a quote in its version.
def quotedCjson : Cjson where
  parse _ := some (.object [(lit "schema", .number (.finite 1)),
    (lit "builds", .array [build "1.0\"x"])])
  print _ := []
  valueint _ := 1

def quotedPick : EspErr × OtaBuild :=
  manifestPick quotedCjson [] (some (lit "http://host/manifest.json")) none (lit "esp32c6")
    (lit "stable") none

def quotedInfo : PortInfo where
  version := .print (lit "0.9.0")
  project := .print (lit "node")
  idf := .print (lit "v5.4")
  date := .print (lit "Jan  1 2025")
  time := .print (lit "12:00:00")
  slot := .print (lit "ota_0")
  otherSlot := .print (lit "ota_1")
  state := .print (lit "valid")
  pendingVerify := false
  rolledBack := false
  otherVersion := .empty

def quotedFields : StatusFields where
  idfTarget := .print (lit "esp32c6")
  state := .available
  lastError := .empty
  avail := quotedPick.2
  haveAvail := true
  received := 0
  total := 0
  lastCheckAt := 60
  nextCheckAt := 0
  confirmedThisBoot := false
  keyFp := .empty
  manifestUrl := .print (lit "http://host/manifest.json")
  manifestEff := .empty
  channel := .print (lit "stable")
  autoCheck := false
  autoInstall := false

-- The manifest is accepted, and the document is none.
theorem quoted_version_breaks :
    quotedPick.1 = .ok ∧
      (quotedFields.statusJson quotedInfo 90 true).any (fun text => (parse text).isNone) := by
  decide +kernel

end Document

end Espos.Update

import Mathlib.Data.List.Dedup
import Espos.Lib.Text
import Espos.Sk.Tls.Hosts
import Espos.Sk.Tls.Policy

-- What `normalise` writes: the names of the set in strict order, with commas
-- in between.

namespace Espos.Sk.Tls

open Espos.Text
open Espos.Best

variable {names : List CStr} {outSize : Nat}

theorem cmpCi_eq (a b : CStr) : cmpCi a b = strcmp (a.map lower) (b.map lower) := by
  induction a generalizing b with
  | nil => cases b <;> rfl
  | cons x a ih =>
    cases b with
    | nil => rfl
    | cons y b =>
      simp only [cmpCi, List.map_cons, strcmp]
      by_cases hxy : lower x = lower y
      · simp [hxy, ih]
      · have hne : (lower x).toNat ≠ (lower y).toNat := fun h => hxy (Char.toNat_inj.mp h)
        rw [if_pos hxy]
        by_cases hlt : (lower x).toNat < (lower y).toNat
        · rw [if_pos hlt, if_pos hlt]
        · rw [if_neg hlt, if_neg hlt, if_pos (by omega)]

-- Names are told apart by this.
def nameKey (name : CStr) : List ℕ :=
  (name.map lower).map Char.toNat

theorem cmpCi_lt_iff (a b : CStr) : (cmpCi a b == .lt) = true ↔ nameKey a < nameKey b := by
  rw [beq_iff_eq, cmpCi_eq, strcmp_lt_iff]
  rfl

theorem cmpCi_gt_iff (a b : CStr) : (cmpCi a b == .gt) = true ↔ nameKey b < nameKey a := by
  rw [beq_iff_eq, cmpCi_eq, strcmp_gt_iff, strcmp_lt_iff]
  rfl

-- The names in the order in which the passes write them.
def written (names : List CStr) (n : Nat) (prev : Option CStr) : List CStr :=
  (drain (fun cand => !cand.isEmpty) (fun a b => cmpCi a b == .lt) (fun a b => cmpCi a b == .gt)
    names n prev).map (List.map lower)

theorem mem_written {n : Nat} {prev : Option CStr} {text : CStr}
    (h : text ∈ written names n prev) : ∃ name ∈ names, name ≠ [] ∧ text = name.map lower := by
  obtain ⟨name, hname, rfl⟩ := List.mem_map.mp h
  obtain ⟨hmem, hsome, _⟩ := mem_drain cmpCi_lt_iff cmpCi_gt_iff hname
  exact ⟨name, hmem, by simpa using hsome, rfl⟩

theorem mem_written_iff {text : CStr} :
    text ∈ written names names.length none ↔
      ∃ name ∈ names, name ≠ [] ∧ text = name.map lower := by
  refine ⟨mem_written, ?_⟩
  rintro ⟨name, hname, hsome, rfl⟩
  have hle := List.length_filter_le (fun cand : CStr =>
    !cand.isEmpty && follows (fun a b => cmpCi a b == .gt) none cand) names
  obtain ⟨other, hother, hkey⟩ :=
    exists_mem_drain cmpCi_lt_iff cmpCi_gt_iff hle hname (by simpa using hsome) rfl
  have hinj : Function.Injective Char.toNat := fun x y hxy => Char.toNat_inj.mp hxy
  have heq : other.map lower = name.map lower := List.map_injective_iff.mpr hinj hkey
  rw [← heq]
  exact List.mem_map_of_mem hother

theorem sorted_written {n : Nat} {prev : Option CStr} :
    (written names n prev).Pairwise fun a b => strcmp a b = .lt := by
  rw [written, List.pairwise_map]
  apply (pairwise_drain cmpCi_lt_iff cmpCi_gt_iff).imp
  intro a b hab
  exact strcmp_lt_iff.mpr hab

-- The loop stops where the next name does not fit.
theorem normaliseFrom_eq {n : Nat} {prev : Option CStr} {out : CStr} (hout : out.length < outSize) :
    if (out ++ listed out.isEmpty (written names n prev)).length < outSize then
      normaliseFrom names outSize n prev out =
        (out ++ listed out.isEmpty (written names n prev), true)
    else (normaliseFrom names outSize n prev out).2 = false := by
  induction n generalizing prev out with
  | zero => simpa [written, drain, listed, normaliseFrom] using hout
  | succ n ih =>
    cases hbest : smallest names prev with
    | none =>
      have hdrain : written names (n + 1) prev = [] := by
        rw [written, drain, ← smallest, hbest]
        rfl
      simpa [hdrain, listed, normaliseFrom, hbest] using hout
    | some p =>
      obtain ⟨i, best⟩ := p
      have hdrain : written names (n + 1) prev =
          best.map lower :: written names n (some best) := by
        rw [written, drain, ← smallest, hbest]
        rfl
      have hsome : best ≠ [] := by
        have := (elect_eq_some cmpCi_lt_iff hbest).2.1
        simp only [Bool.and_eq_true] at this
        simpa using this.1
      obtain ⟨next, hnext⟩ : ∃ next : CStr,
          next = out ++ (if out.isEmpty then [] else [',']) ++ best.map lower := ⟨_, rfl⟩
      have hempty : next.isEmpty = false := by simp [hnext, hsome]
      have htotal : out ++ listed out.isEmpty (written names (n + 1) prev) =
          next ++ listed next.isEmpty (written names n (some best)) := by
        rw [hempty, hdrain, listed, hnext]
        simp only [List.append_assoc]
      have hlen : next.length = out.length + (best.length + if out.isEmpty then 0 else 1) := by
        rw [hnext]
        cases hout' : out.isEmpty <;> simp
      have hstep : normaliseFrom names outSize (n + 1) prev out =
          if outSize < out.length + (best.length + if out.isEmpty then 0 else 1) + 1 then
            (out, false)
          else normaliseFrom names outSize n (some best) next := by
        rw [normaliseFrom, hbest, hnext]
      rw [htotal, hstep]
      by_cases hfits : next.length < outSize
      · have hroom : ¬ outSize <
            out.length + (best.length + if out.isEmpty then 0 else 1) + 1 := by omega
        rw [if_neg hroom]
        exact ih hfits
      · have hroom : outSize <
            out.length + (best.length + if out.isEmpty then 0 else 1) + 1 := by omega
        rw [if_pos hroom, if_neg]
        rw [List.length_append]
        omega

theorem normalise_eq (hsize : 0 < outSize) :
    if (listed true (written names names.length none)).length < outSize then
      normalise names outSize = (listed true (written names names.length none), true)
    else (normalise names outSize).2 = false :=
  @normaliseFrom_eq names outSize names.length none [] hsize

end Espos.Sk.Tls

-- When two certificates are taken to name the same hosts.

namespace Espos.Sk.Tls

open Espos.Text

variable {A B sans : List SanEntry}

-- The text an entry adds to the set.
def SanEntry.recorded (e : SanEntry) : Option CStr :=
  if e.bytes.isEmpty then none else e.name

-- An entry with a value comes behind eight that were recorded, `n` of them
-- before these.
def CrowdedFrom (n : Nat) (sans : List SanEntry) : Prop :=
  ∃ front e rest, sans = front ++ e :: rest ∧ e.bytes ≠ [] ∧
    SAN_ENTRY_MAX ≤ n + (front.filterMap SanEntry.recorded).length

def Crowded (sans : List SanEntry) : Prop :=
  CrowdedFrom 0 sans

-- The texts of the set.
def texts (sans : List SanEntry) : List CStr :=
  (((hosts sans).map Host.text).filter fun text => !text.isEmpty).dedup

-- The texts, with a comma or the terminator behind each, go into the buffer.
def Fits (sans : List SanEntry) : Prop :=
  ((texts sans).map fun text => text.length + 1).sum ≤ SAN_MAX

-- The first text starts with the character that marks a set as incomplete.
def Marked (sans : List SanEntry) : Prop :=
  ∃ text ∈ texts sans, text.head? = some '!' ∧
    ∀ other ∈ texts sans, ∀ c, other.head? = some c → '!'.toNat ≤ c.toNat

theorem mem_texts {text : CStr} :
    text ∈ texts sans ↔ text ≠ [] ∧ ∃ h ∈ hosts sans, h.text = text := by
  simp only [texts, List.mem_dedup, List.mem_filter, List.mem_map]
  constructor
  · rintro ⟨⟨h, hh, rfl⟩, hsome⟩
    exact ⟨by simpa using hsome, h, hh, rfl⟩
  · rintro ⟨hsome, h, hh, rfl⟩
    exact ⟨⟨h, hh, rfl⟩, by simpa using hsome⟩

-- Reading the entries

theorem crowdedFrom_cons {n : Nat} {e : SanEntry} {es : List SanEntry} :
    CrowdedFrom n (e :: es) ↔
      (e.bytes ≠ [] ∧ SAN_ENTRY_MAX ≤ n) ∨ CrowdedFrom (n + e.recorded.toList.length) es := by
  constructor
  · rintro ⟨front, f, rest, hsplit, hf, hlen⟩
    cases front with
    | nil =>
      obtain ⟨rfl, rfl⟩ := List.cons.inj hsplit
      exact Or.inl ⟨hf, by simpa using hlen⟩
    | cons g front =>
      obtain ⟨rfl, rfl⟩ := List.cons.inj hsplit
      refine Or.inr ⟨front, f, rest, rfl, hf, ?_⟩
      cases hrec : e.recorded with
      | none => simpa [hrec] using hlen
      | some name =>
        simp only [List.filterMap_cons, hrec, List.length_cons] at hlen
        simp only [Option.toList_some, List.length_singleton]
        omega
  · rintro (⟨he, hn⟩ | ⟨front, f, rest, rfl, hf, hlen⟩)
    · exact ⟨[], e, es, rfl, he, by simpa using hn⟩
    · refine ⟨e :: front, f, rest, rfl, hf, ?_⟩
      cases hrec : e.recorded with
      | none => simpa [hrec] using hlen
      | some name =>
        simp only [hrec, Option.toList_some, List.length_singleton] at hlen
        simp only [List.filterMap_cons, hrec, List.length_cons]
        omega

theorem collectNames_spec (names : List CStr) (sans : List SanEntry) :
    ((collectNames names sans).2 = true ↔ CrowdedFrom names.length sans) ∧
    ((collectNames names sans).2 = false →
      (collectNames names sans).1 = names ++ sans.filterMap SanEntry.recorded) := by
  induction sans generalizing names with
  | nil => simp [collectNames, CrowdedFrom]
  | cons e es ih =>
    rw [collectNames, crowdedFrom_cons]
    by_cases hempty : e.bytes = []
    · have hrec : e.recorded = none := by simp [SanEntry.recorded, hempty]
      simpa [hempty, hrec] using ih names
    · have hrec : e.recorded = e.name := by simp [SanEntry.recorded, hempty]
      by_cases hfull : SAN_ENTRY_MAX ≤ names.length
      · simp [hempty, hfull]
      · cases hname : e.name with
        | none => simpa [hempty, hfull, hrec, hname] using ih names
        | some name =>
          have := ih (names ++ [name])
          simpa [hempty, hfull, hrec, hname] using this

theorem lower_eq_nul {c : Char} : lower c = '\x00' ↔ c = '\x00' := by
  rw [lower]
  split
  · rename_i h
    constructor
    · intro heq
      have hvalid : ∀ n, 'A'.toNat ≤ n → n ≤ 'Z'.toNat →
          Char.ofNat (n - 'A'.toNat + 'a'.toNat) ≠ '\x00' := by decide
      exact absurd heq (hvalid c.toNat h.1 h.2)
    · rintro rfl
      exact absurd h.1 (by decide)
  · rfl

theorem map_lower_cString (bytes : List UInt8) :
    (cString (bytes.take (SAN_NAME_MAX - 1))).map lower =
      (Host.dns ((ofBytes bytes).map lower)).text := by
  have hnul : (fun c => c != '\x00') ∘ lower = fun c => c != '\x00' := by
    funext c
    rw [Bool.eq_iff_iff, Function.comp, bne_iff_ne, bne_iff_ne, ne_eq, lower_eq_nul]
  have htake : ofBytes (bytes.take (SAN_NAME_MAX - 1)) = (ofBytes bytes).take (SAN_NAME_MAX - 1) :=
    List.map_take
  rw [cString, htake, Host.text, ← List.map_take, List.takeWhile_map, hnul]

theorem map_lower_of_address {text : CStr} (h : ∀ c ∈ text, c ∈ addressChars) :
    text.map lower = text := by
  have hall : addressChars.all (fun c => lower c == c) = true := by decide
  have hlower : ∀ c ∈ addressChars, lower c = c := by
    intro c hc
    exact eq_of_beq (List.all_eq_true.mp hall c hc)
  calc text.map lower = text.map id := List.map_congr_left fun c hc => hlower c (h c hc)
    _ = text := List.map_id text

-- What is recorded is the text of the host.
theorem recorded_eq_some {e : SanEntry} {name : CStr} (h : e.recorded = some name) :
    ∃ host, e.host = some host ∧ name.map lower = host.text := by
  simp only [SanEntry.recorded] at h
  split at h
  · cases h
  · simp only [SanEntry.name] at h
    split at h
    · rename_i hdns
      obtain rfl := Option.some.inj h
      exact ⟨_, by simp [SanEntry.host, hdns], map_lower_cString e.bytes⟩
    · rename_i hdns
      split at h
      · rename_i hip
        obtain rfl := Option.some.inj h
        simp only [Bool.and_eq_true, beq_iff_eq] at hip
        refine ⟨.ip e.bytes, by simp [SanEntry.host, hdns, hip.1], ?_⟩
        rw [map_lower_of_address fun c hc => mem_ip4Text hc, Host.text, if_pos hip.2]
      · split at h
        · rename_i hip
          obtain rfl := Option.some.inj h
          simp only [Bool.and_eq_true, beq_iff_eq] at hip
          refine ⟨.ip e.bytes, by simp [SanEntry.host, hdns, hip.1], ?_⟩
          rw [map_lower_of_address fun c hc => mem_ip6Text hc, Host.text,
            if_neg (by omega), if_pos hip.2]
        · cases h

theorem exists_recorded {e : SanEntry} {host : Host} (h : e.host = some host)
    (htext : host.text ≠ []) : ∃ name, e.recorded = some name ∧ name.map lower = host.text := by
  simp only [SanEntry.host] at h
  have hempty : e.bytes ≠ [] := by
    intro hempty
    split at h
    · obtain rfl := Option.some.inj h
      simp [Host.text, ofBytes, hempty] at htext
    · split at h
      · obtain rfl := Option.some.inj h
        simp [Host.text, hempty] at htext
      · cases h
  have hrec : e.recorded = e.name := by simp [SanEntry.recorded, hempty]
  split at h
  · rename_i hdns
    obtain rfl := Option.some.inj h
    exact ⟨_, by rw [hrec, SanEntry.name, if_pos hdns], map_lower_cString e.bytes⟩
  · rename_i hdns
    split at h
    · rename_i hip
      obtain rfl := Option.some.inj h
      simp only [Host.text] at htext ⊢
      split at htext
      · rename_i hfour
        refine ⟨ip4Text e.bytes, by simp [hrec, SanEntry.name, hdns, hip, hfour], ?_⟩
        rw [if_pos hfour]
        exact map_lower_of_address fun c hc => mem_ip4Text hc
      · rename_i hfour
        split at htext
        · rename_i hsixteen
          refine ⟨ip6Text e.bytes, by simp [hrec, SanEntry.name, hdns, hip, hsixteen], ?_⟩
          rw [if_neg hfour, if_pos hsixteen]
          exact map_lower_of_address fun c hc => mem_ip6Text hc
        · exact absurd rfl htext
    · cases h

-- The set as it is written

-- The texts in the order of the string.
def ordered (sans : List SanEntry) : List CStr :=
  written (sans.filterMap SanEntry.recorded) (sans.filterMap SanEntry.recorded).length none

theorem mem_ordered {text : CStr} : text ∈ ordered sans ↔ text ∈ texts sans := by
  rw [ordered, mem_written_iff, mem_texts]
  constructor
  · rintro ⟨name, hname, hsome, rfl⟩
    obtain ⟨e, he, hrec⟩ := List.mem_filterMap.mp hname
    obtain ⟨host, hhost, htext⟩ := recorded_eq_some hrec
    exact ⟨by simpa using hsome, host, List.mem_filterMap.mpr ⟨e, he, hhost⟩, htext.symm⟩
  · rintro ⟨hsome, host, hhost, rfl⟩
    obtain ⟨e, he, hhost⟩ := List.mem_filterMap.mp hhost
    obtain ⟨name, hrec, htext⟩ := exists_recorded hhost hsome
    refine ⟨name, List.mem_filterMap.mpr ⟨e, he, hrec⟩, ?_, htext.symm⟩
    rintro rfl
    exact hsome htext.symm

theorem ordered_perm : (ordered sans).Perm (texts sans) := by
  apply (List.perm_ext_iff_of_nodup ?_ (List.nodup_dedup _)).mpr fun text => mem_ordered
  apply sorted_written.imp
  rintro a b hab rfl
  exact strcmp_lt_irrefl a hab

theorem fits_iff : (listed true (ordered sans)).length < SAN_MAX ↔ Fits sans := by
  have hsum : ((ordered sans).map fun text => text.length + 1).sum =
      ((texts sans).map fun text => text.length + 1).sum := (ordered_perm.map _).sum_nat
  rw [Fits, ← hsum]
  by_cases hnil : ordered sans = []
  · simp [hnil, listed, SAN_MAX]
  · rw [← length_listed_true hnil]
    omega

theorem crtSanSet_eq (hroom : ¬ Crowded sans) (hfits : Fits sans) :
    (crtSanSet sans SAN_MAX).1 = listed true (ordered sans) := by
  obtain ⟨hover, hnames⟩ := collectNames_spec [] sans
  have hover' : (collectNames [] sans).2 = false := by
    rw [← Bool.not_eq_true, hover]
    exact hroom
  have hnorm := @normalise_eq (sans.filterMap SanEntry.recorded) SAN_MAX (by decide)
  rw [← ordered, if_pos (fits_iff.mpr hfits)] at hnorm
  simp only [crtSanSet, hnames hover', hover', List.nil_append, hnorm]
  rfl

theorem crtSanSet_marked (h : Crowded sans ∨ ¬ Fits sans) :
    (crtSanSet sans SAN_MAX).1.head? = some '!' := by
  obtain ⟨hover, hnames⟩ := collectNames_spec [] sans
  have hbad : (!(normalise (collectNames [] sans).1 SAN_MAX).2 || (collectNames [] sans).2) =
      true := by
    cases hover' : (collectNames [] sans).2 with
    | true => simp
    | false =>
      have hroom : ¬ Crowded sans := by
        intro hcrowded
        rw [hover.mpr hcrowded] at hover'
        cases hover'
      have hnorm := @normalise_eq (sans.filterMap SanEntry.recorded) SAN_MAX (by decide)
      rw [← ordered, if_neg (fun hlt => (h.resolve_left hroom) (fits_iff.mp hlt))] at hnorm
      rw [hnames hover', List.nil_append, hnorm]
      rfl
  simp only [crtSanSet, hbad, if_true]
  rfl

theorem head_le_of_strcmp {a b : CStr} {x y : Char} (h : strcmp a b = .lt)
    (hx : a.head? = some x) (hy : b.head? = some y) : x.toNat ≤ y.toNat := by
  obtain ⟨a, rfl⟩ := List.head?_eq_some_iff.mp hx
  obtain ⟨b, rfl⟩ := List.head?_eq_some_iff.mp hy
  by_contra hlt
  rw [strcmp, if_neg (by omega), if_pos (by omega)] at h
  cases h

theorem ne_nil_of_mem_ordered {text : CStr} (h : text ∈ ordered sans) : text ≠ [] :=
  (mem_texts.mp (mem_ordered.mp h)).1

theorem listed_eq_nil_iff : listed true (ordered sans) = [] ↔ texts sans = [] := by
  have hperm : texts sans = [] ↔ ordered sans = [] := by
    constructor
    · intro h
      exact List.Perm.eq_nil (h ▸ ordered_perm)
    · intro h
      exact List.Perm.eq_nil (h ▸ ordered_perm.symm)
  rw [hperm]
  cases hord : ordered sans with
  | nil => simp [listed]
  | cons text rest =>
    have hin : text ∈ ordered sans := by simp [hord]
    simp [listed, ne_nil_of_mem_ordered hin]

-- The string starts as the least of its texts does.
theorem head_listed_iff : (listed true (ordered sans)).head? = some '!' ↔ Marked sans := by
  have hsorted : (ordered sans).Pairwise fun a b => strcmp a b = .lt := sorted_written
  cases hord : ordered sans with
  | nil =>
    have hnone : ∀ text, text ∉ texts sans := by simp [← mem_ordered, hord]
    simp [listed, Marked, hnone]
  | cons least rest =>
    rw [hord] at hsorted
    have hin : least ∈ ordered sans := by simp [hord]
    obtain ⟨c, tail, rfl⟩ := List.exists_cons_of_ne_nil (ne_nil_of_mem_ordered hin)
    have hfirst := (List.pairwise_cons.mp hsorted).1
    simp only [listed, if_true, List.nil_append, List.cons_append, List.head?_cons,
      Option.some.injEq, Marked]
    constructor
    · rintro rfl
      refine ⟨_, mem_ordered.mp hin, rfl, ?_⟩
      intro other hother d hd
      rw [← mem_ordered, hord] at hother
      rcases List.mem_cons.mp hother with rfl | hother
      · rw [← Option.some.inj hd]
      · exact head_le_of_strcmp (hfirst other hother) rfl hd
    · rintro ⟨text, htext, hhead, hall⟩
      have hge := hall _ (mem_ordered.mp hin) c rfl
      rw [← mem_ordered, hord] at htext
      rcases List.mem_cons.mp htext with rfl | htext
      · exact Option.some.inj hhead
      · have hle := head_le_of_strcmp (hfirst text htext) rfl hhead
        exact Char.toNat_inj.mp (by omega)

-- The verdict

def judgedEqual (A B : List SanEntry) : Bool :=
  sanEqual (crtSanSet A SAN_MAX).1 (crtSanSet B SAN_MAX).1

theorem sanEqual_iff {x y : CStr} :
    sanEqual x y = true ↔ x ≠ [] ∧ x.head? ≠ some '!' ∧ x = y := by
  simp only [sanEqual]
  by_cases hxy : x = y
  · subst hxy
    cases x with
    | nil => simp
    | cons c x => by_cases hc : c = '!' <;> simp [hc, strcmp_eq_iff]
  · have hne : (strcmp x y == .eq) = false := by
      rw [← Bool.not_eq_true, beq_iff_eq, strcmp_eq_iff]
      exact hxy
    simp [hxy, hne]

theorem judgedEqual_iff :
    judgedEqual A B = true ↔
      (¬ Crowded A ∧ Fits A) ∧ (¬ Crowded B ∧ Fits B) ∧ texts A ≠ [] ∧ ¬ Marked A ∧
        listed true (ordered A) = listed true (ordered B) := by
  by_cases hA : ¬ Crowded A ∧ Fits A
  · by_cases hB : ¬ Crowded B ∧ Fits B
    · rw [judgedEqual, crtSanSet_eq hA.1 hA.2, crtSanSet_eq hB.1 hB.2, sanEqual_iff,
        ← head_listed_iff, ne_eq, ne_eq, listed_eq_nil_iff]
      simp only [hA, hB, not_false_eq_true, and_self, true_and]
    · have hmark := @crtSanSet_marked B (by tauto)
      simp [judgedEqual, sanEqual, hmark, hB]
  · have hmark := @crtSanSet_marked A (by tauto)
    simp [judgedEqual, sanEqual, hmark, hA]

def SameHosts (A B : List SanEntry) : Prop :=
  ∀ h, h ∈ hosts A ↔ h ∈ hosts B

theorem texts_congr (h : SameHosts A B) : ∀ text, text ∈ texts A ↔ text ∈ texts B := by
  intro text
  simp only [mem_texts, h _]

theorem ordered_congr (h : SameHosts A B) : ordered A = ordered B := by
  apply eq_of_strcmp_sorted sorted_written sorted_written
  intro text
  rw [← ordered, ← ordered, mem_ordered, mem_ordered]
  exact texts_congr h text

theorem separable (hexact : ∀ h ∈ hosts A, h.Exact) :
    ∀ text ∈ ordered A, text ≠ [] ∧ ',' ∉ text := by
  intro text htext
  obtain ⟨hsome, h, hh, rfl⟩ := mem_texts.mp (mem_ordered.mp htext)
  exact ⟨hsome, Host.comma_notMem_text (hexact h hh)⟩

theorem mem_hosts_of_ordered (h : ordered A = ordered B) (hA : ∀ h ∈ hosts A, h.Exact)
    (hB : ∀ h ∈ hosts B, h.Exact) {host : Host} (hhost : host ∈ hosts A) : host ∈ hosts B := by
  have hin : host.text ∈ ordered A :=
    mem_ordered.mpr (mem_texts.mpr ⟨Host.text_ne_nil (hA host hhost), host, hhost, rfl⟩)
  rw [h] at hin
  obtain ⟨_, other, hother, heq⟩ := mem_texts.mp (mem_ordered.mp hin)
  rwa [← Host.text_inj (hB other hother) (hA host hhost) heq]

-- Certificates that are judged equal name the same hosts, where no host is
-- lost or altered on the way, and those that name the same are judged equal
-- unless the entries do not all get read or the string looks marked.
theorem san_equal_iff (A B : List SanEntry)
    (hexact : ¬ Crowded A → Fits A → ¬ Crowded B → Fits B →
      (∀ h ∈ hosts A, h.Exact) ∧ ∀ h ∈ hosts B, h.Exact) :
    ((judgedEqual A B = true → SameHosts A B) ∧
      (SameHosts A B → (hosts A).dedup.length ≤ SAN_ENTRY_MAX → Fits A → judgedEqual A B = true)) ↔
    (SameHosts A B → (hosts A).dedup.length ≤ SAN_ENTRY_MAX → Fits A →
      texts A ≠ [] ∧ ¬ Crowded A ∧ ¬ Crowded B ∧ ¬ Marked A) := by
  constructor
  · rintro ⟨_, hcomplete⟩ hsame hlen hfits
    obtain ⟨⟨hA, _⟩, ⟨hB, _⟩, hsome, hmark, _⟩ := judgedEqual_iff.mp (hcomplete hsame hlen hfits)
    exact ⟨hsome, hA, hB, hmark⟩
  · intro hcond
    refine ⟨?_, ?_⟩
    · intro hjudged
      obtain ⟨⟨hA, hfitsA⟩, ⟨hB, hfitsB⟩, _, _, hstring⟩ := judgedEqual_iff.mp hjudged
      obtain ⟨hexactA, hexactB⟩ := hexact hA hfitsA hB hfitsB
      have hordered : ordered A = ordered B :=
        listed_true_inj (separable hexactA) (separable hexactB) hstring
      intro h
      exact ⟨mem_hosts_of_ordered hordered hexactA hexactB,
        mem_hosts_of_ordered hordered.symm hexactB hexactA⟩
    · intro hsame hlen hfits
      obtain ⟨hsome, hA, hB, hmark⟩ := hcond hsame hlen hfits
      have hordered := ordered_congr hsame
      have hfitsB : Fits B := by
        rw [← fits_iff, ← hordered, fits_iff]
        exact hfits
      exact judgedEqual_iff.mpr ⟨⟨hA, hfits⟩, ⟨hB, hfitsB⟩, hsome, hmark, by rw [hordered]⟩

-- Two names of 64 bytes that differ in the last one.
theorem judgedEqual_of_cut :
    let A := [SanEntry.dns "nav-0123456789-0123456789-0123456789-0123456789.boat.example.com"]
    let B := [SanEntry.dns "nav-0123456789-0123456789-0123456789-0123456789.boat.example.cor"]
    judgedEqual A B = true ∧ ¬ SameHosts A B := by
  intro A B
  refine ⟨by decide +kernel, ?_⟩
  intro hsame
  have hin : (hosts A).all (fun h => decide (h ∈ hosts B)) = true := by
    rw [List.all_eq_true]
    intro h hh
    exact decide_eq_true ((hsame h).mp hh)
  revert hin
  decide +kernel

-- The order, the case and a duplicate make no difference.
theorem san_equal_iff_reordered :
    let A := [SanEntry.dns "Boat.lan", .ip [10, 0, 0, 7]]
    let B := [SanEntry.ip [10, 0, 0, 7], .dns "boat.lan", .dns "BOAT.lan"]
    (judgedEqual A B = true → SameHosts A B) ∧
      (SameHosts A B → (hosts A).dedup.length ≤ SAN_ENTRY_MAX → Fits A → judgedEqual A B = true) := by
  intro A B
  have hboat : (Host.dns (lit "boat.lan")).Exact := by
    refine ⟨by decide, by decide, by decide, by decide, ?_⟩
    intro bytes htext
    have ht : 't' ∈ (Host.ip bytes).text := by
      rw [htext]
      decide
    exact absurd (Host.mem_text_ip ht) (by decide)
  have hexact : ∀ h ∈ [Host.dns (lit "boat.lan"), .ip [10, 0, 0, 7]], h.Exact := by
    intro h hh
    rcases List.mem_cons.mp hh with rfl | hh
    · exact hboat
    · obtain rfl := List.mem_singleton.mp hh
      exact Or.inl rfl
  have hhosts {sans : List SanEntry}
      (hsub : hosts sans ⊆ [Host.dns (lit "boat.lan"), .ip [10, 0, 0, 7]]) :
      ∀ h ∈ hosts sans, h.Exact := fun h hh => hexact h (hsub hh)
  have hroom {sans : List SanEntry} (h : (collectNames [] sans).2 = false) : ¬ Crowded sans := by
    intro hcrowded
    rw [(collectNames_spec [] sans).1.mpr hcrowded] at h
    cases h
  refine (san_equal_iff A B ?_).mpr ?_
  · intro _ _ _ _
    exact ⟨hhosts (by decide), hhosts (by decide)⟩
  · intro _ _ _
    refine ⟨by decide, hroom (by decide), hroom (by decide), ?_⟩
    rw [← head_listed_iff]
    decide +kernel

end Espos.Sk.Tls

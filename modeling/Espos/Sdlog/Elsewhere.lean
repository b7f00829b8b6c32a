import Espos.Sdlog.Logger

-- All but the first half of `open` stays away from the files of the root.

namespace Espos.Sdlog

open Espos.Text Espos.Crash Espos.Crash.Prog

variable {R : Op → Prop} {tmp dst : Path}

-- The operations that write a file whole or not at all.
structure Writes (R : Op → Prop) (tmp dst : Path) : Prop where
  fopenWrite : R (.fopenWrite tmp)
  fputs : ∀ text, R (.fputs tmp text)
  fsync : R (.fsync tmp)
  fclose : R (.fclose tmp)
  unlinkTmp : R (.unlink tmp)
  unlinkDst : R (.unlink dst)
  rename : R (.rename tmp dst)

theorem andAlso_uses {ok : Bool} {p : Io Bool} (hp : p.Uses R) : (andAlso ok p).Uses R := by
  cases ok with
  | false => exact trivial
  | true => exact hp

theorem putParts_uses (h : Writes R tmp dst) (parts : List CStr) :
    (putParts tmp parts).Uses R := by
  induction parts with
  | nil => exact trivial
  | cons text rest ih =>
    apply uses_bind (uses_perform (h.fputs text))
    intro ok
    exact andAlso_uses ih

theorem dropTmp_uses (h : Writes R tmp dst) : (dropTmp tmp).Uses R := by
  apply uses_bind (uses_perform h.unlinkTmp)
  intro _
  exact trivial

theorem putInPlace_uses (h : Writes R tmp dst) : (putInPlace tmp dst).Uses R := by
  apply uses_bind (uses_perform h.unlinkDst)
  intro _
  apply uses_bind (uses_perform h.rename)
  intro renamed
  exact uses_ite _ (dropTmp_uses h) trivial

theorem writeFileAtomic_uses (h : Writes R tmp dst) (parts : List CStr) :
    (writeFileAtomic tmp dst parts).Uses R := by
  apply uses_bind (uses_perform h.fopenWrite)
  intro opened
  cases opened with
  | false => exact trivial
  | true =>
    apply uses_bind (putParts_uses h parts)
    intro written
    apply uses_bind (andAlso_uses (uses_perform h.fsync))
    intro flushed
    apply uses_bind (uses_perform h.fclose)
    intro closed
    exact uses_ite _ (dropTmp_uses h) (putInPlace_uses h)

-- The operations that only look.
def Reads : Op → Prop
  | .mkdirRoot | .scanRoot | .readNumber _ | .isDir _ | .stat _ | .size _ | .read _
  | .readDir _ => True
  | _ => False

theorem Reads.away {o : Op} (h : Reads o) : Away o := by
  cases o <;> first | exact trivial | exact h.elim

theorem readClose_reads (seq : Nat) (info : Info) : (readClose seq info).Uses Reads := by
  refine uses_bind (uses_perform trivial) ?_
  intro text
  cases text with
  | absent => exact trivial
  | failed => exact trivial
  | got text =>
    cases hparse : parseClose text with
    | none =>
      simp only [hparse]
      exact trivial
    | some fields =>
      simp only [hparse]
      exact trivial

theorem sdlogInfo_reads (seq : Nat) : (sdlogInfo seq).Uses Reads := by
  refine uses_bind (uses_perform trivial) ?_
  intro isDir
  cases isDir with
  | false => exact trivial
  | true =>
    refine uses_bind (uses_perform trivial) ?_
    intro synced
    refine uses_bind (uses_perform trivial) ?_
    intro closed
    cases closed with
    | false =>
      refine uses_bind (uses_perform trivial) ?_
      intro size
      exact trivial
    | true => exact readClose_reads _ _

theorem pruneInfo_reads (acc : UInt64 × List Info) (seq : Nat) :
    (pruneInfo acc seq).Uses Reads := by
  apply uses_bind (sdlogInfo_reads seq)
  intro answer
  exact uses_ite _ trivial trivial

theorem readLastSeq_reads : readLastSeq.Uses Reads := by
  have hone : ∀ p, (readSeqFile p).Uses Reads := by
    intro p
    refine uses_bind (uses_perform trivial) ?_
    intro text
    exact trivial
  apply uses_bind (hone _)
  intro a
  apply uses_bind (hone _)
  intro b
  exact trivial

theorem openLast_reads : openLast.Uses Reads := by
  refine uses_bind (uses_perform trivial) ?_
  intro made
  refine uses_ite _ trivial ?_
  refine uses_bind (uses_perform trivial) ?_
  intro seqs
  cases seqs with
  | none => exact trivial
  | some seqs =>
    apply uses_bind readLastSeq_reads
    intro last
    exact trivial

theorem writeFileAtomic_away (htmp : tmp.isFile = true) (hdst : dst.isFile = true)
    (parts : List CStr) : (writeFileAtomic tmp dst parts).Uses Away :=
  writeFileAtomic_uses ⟨htmp, fun _ => htmp, htmp, trivial, htmp, hdst, htmp, hdst⟩ parts

theorem writeClose_away (seq : Nat) (clean : Bool) (rows bytes : UInt64) (sha : CStr)
    (jsonMeta : Option CStr) : (writeClose seq clean rows bytes sha jsonMeta).Uses Away := by
  rw [writeClose]
  refine uses_ite _ trivial ?_
  exact writeFileAtomic_away rfl rfl _

theorem unlinkAll_away (seq : Nat) (names : List Name) : (unlinkAll seq names).Uses Away := by
  refine uses_foldlM ?_ () names
  intro _ name
  refine uses_bind (uses_perform rfl) ?_
  intro _
  exact trivial

theorem sdlogRemove_away (seq : Nat) : (sdlogRemove seq).Uses Away := by
  apply uses_bind (uses_perform trivial)
  intro entries
  cases entries with
  | absent => exact trivial
  | failed => exact trivial
  | got names =>
    apply uses_bind (unlinkAll_away seq names)
    intro _
    exact uses_bind (uses_perform trivial) fun _ => trivial

theorem startSession_away (seq : Nat) (header : CStr) (cfg : Option OpenCfg) :
    (startSession seq header cfg).Uses Away := by
  apply uses_bind (uses_perform trivial)
  intro made
  refine uses_ite _ trivial ?_
  apply uses_bind (writeFileAtomic_away rfl rfl _)
  intro err
  refine uses_ite _ (uses_bind (sdlogRemove_away seq) fun _ => trivial) ?_
  apply uses_bind (uses_perform trivial)
  intro stream
  cases stream with
  | none => exact uses_bind (sdlogRemove_away seq) fun _ => trivial
  | some stream => exact trivial

theorem sdlogSync_away (s : Session) : (sdlogSync s).Uses Away := by
  rw [sdlogSync]
  refine uses_ite _ trivial ?_
  apply uses_bind (uses_perform trivial)
  intro ok
  exact uses_ite _ trivial trivial

theorem sdlogAppend_away (s : Session) (row : CStr) : (sdlogAppend s row).Uses Away := by
  rw [sdlogAppend]
  refine uses_ite _ trivial (uses_ite _ trivial ?_)
  apply uses_bind (uses_perform trivial)
  intro wroteRow
  refine uses_bind (andAlso_uses (uses_perform trivial)) ?_
  intro wrote
  exact uses_ite _ trivial (uses_ite _ (sdlogSync_away _) trivial)

theorem sdlogClose_away (s : Session) (jsonMeta : Option CStr) :
    (sdlogClose s jsonMeta).Uses Away := by
  refine uses_bind (andAlso_uses (uses_perform trivial)) ?_
  intro flushed
  apply uses_bind (uses_perform trivial)
  intro closed
  cases closed && flushed with
  | false => exact trivial
  | true => exact writeClose_away _ _ _ _ _ _

theorem sdlogMarkSynced_away (seq : Nat) (note : Option CStr) :
    (sdlogMarkSynced seq note).Uses Away := by
  apply uses_bind ((sdlogInfo_reads seq).imp fun _ => Reads.away)
  intro answer
  refine uses_ite _ trivial (uses_ite _ trivial ?_)
  exact writeFileAtomic_away rfl rfl _

theorem recoverRows_away (seq : Nat) : (recoverRows seq).Uses Away := by
  apply uses_bind (uses_perform trivial)
  intro text
  cases text with
  | got text => exact trivial
  | failed => exact trivial
  | absent =>
    refine uses_bind (uses_perform rfl) ?_
    intro opened
    cases opened with
    | false => exact trivial
    | true =>
      refine uses_bind (uses_perform rfl) ?_
      intro flushed
      exact uses_bind (uses_perform trivial) fun closed => trivial

theorem cutRows_away (seq keep size : Nat) : (cutRows seq keep size).Uses Away := by
  rw [cutRows]
  refine uses_ite _ ?_ trivial
  exact uses_perform rfl

theorem recoverOne_away (seq : Nat) : (recoverOne seq).Uses Away := by
  refine uses_bind (uses_perform rfl) ?_
  intro _
  apply uses_bind (recoverRows_away seq)
  intro text
  cases text with
  | none => exact trivial
  | some text =>
    apply uses_bind (cutRows_away seq _ _)
    intro cut
    cases cut with
    | false => exact trivial
    | true =>
      apply uses_bind (uses_perform trivial)
      intro kept
      cases kept with
      | absent => exact trivial
      | failed => exact trivial
      | got kept => exact writeClose_away _ _ _ _ _ _

theorem recoverSeq_away (r : Recovered) (seq : Nat) : (recoverSeq r seq).Uses Away := by
  apply uses_bind (uses_perform trivial)
  intro closed
  cases closed with
  | true => exact trivial
  | false =>
    apply uses_bind (uses_perform trivial)
    intro started
    cases started with
    | false => exact uses_bind (sdlogRemove_away seq) fun _ => trivial
    | true => exact uses_bind (recoverOne_away seq) fun _ => trivial

theorem sdlogRecover_away : sdlogRecover.Uses Away := by
  apply uses_bind (uses_perform trivial)
  intro seqs
  cases seqs with
  | none => exact trivial
  | some seqs => exact uses_foldlM recoverSeq_away _ seqs

theorem pruneOne_away (keepBytes : UInt64) (p : Pruned) (info : Info) :
    (pruneOne keepBytes p info).Uses Away := by
  rw [pruneOne]
  refine uses_ite _ trivial ?_
  apply uses_bind (sdlogRemove_away _)
  intro err
  exact uses_ite _ trivial trivial

theorem sdlogPrune_away (keepBytes : UInt64) : (sdlogPrune keepBytes).Uses Away := by
  apply uses_bind (uses_perform trivial)
  intro seqs
  cases seqs with
  | none => exact trivial
  | some seqs =>
    have hinfo := fun acc seq => (pruneInfo_reads acc seq).imp fun _ => Reads.away
    apply uses_bind (uses_foldlM hinfo _ seqs)
    intro acc
    exact uses_foldlM (pruneOne_away keepBytes) _ _

end Espos.Sdlog

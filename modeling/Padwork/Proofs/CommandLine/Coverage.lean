import Padwork.Proofs.CommandLine.Mining
import Padwork.Proofs.Work.Verification

/-!
# Which nonces a line that mines tries

A line that mines tries as many nonces as it is asked for, from its start on, except the
highest of all words: the end of a range is a word that is not in the range. So a line
that is asked for this nonce alone warns that it is not valid without having tried it.
-/
namespace Padwork.CommandLine

variable {machine : Machine} {files : Files} {o : Overrides} {t : TemplateText} {s : Settings}
  {b : Template} {start : UInt64} {count : UInt64} {stop : Nat} {run : Outcome}

def Outcome.PrintsSolution (run : Outcome) : Prop :=
  ∃ nonce digest, run.output =
    [.text "Found valid proof!", .text ("Nonce: " ++ nonce), .text ("Digest: " ++ digest)]

def Outcome.WarnsOfNone (run : Outcome) : Prop :=
  ∃ range, ⟨.warn, "No valid nonce in " ++ range⟩ ∈ run.log

theorem Settled.printsSolution_iff (h : Settled machine files o t start stop run) :
    run.PrintsSolution ↔ ∃ nonce, start ≤ nonce ∧ nonce.toNat < stop ∧
      ∃ digest, Accepts machine files o t (wordText nonce) digest := by
  cases h with
  | found hlog hstart hstop haccepts hrefuses =>
    exact ⟨fun _ => ⟨_, hstart, hstop, _, haccepts⟩, fun _ => ⟨_, _, rfl⟩⟩
  | exhausted hlog hrefuses =>
    constructor
    · rintro ⟨nonce, digest, houtput⟩
      cases houtput
    · rintro ⟨nonce, hstart, hstop, digest, haccepts⟩
      exact absurd haccepts (hrefuses nonce hstart hstop).not_accepts

theorem Settled.warnsOfNone_iff (h : Settled machine files o t start stop run) :
    run.WarnsOfNone ↔ ∀ nonce, start ≤ nonce → nonce.toNat < stop →
      Refuses machine files o t (wordText nonce) := by
  cases h with
  | found hlog hstart hstop haccepts hrefuses =>
    constructor
    · rintro ⟨range, hwarning⟩
      cases hlog _ hwarning
    · intro hnone
      exact absurd haccepts (hnone _ hstart hstop).not_accepts
  | exhausted hlog hrefuses =>
    exact ⟨fun _ => hrefuses, fun _ => ⟨_, List.mem_append_right _ (List.mem_singleton.mpr rfl)⟩⟩

/-- The nonces that a count asks for, from a start on. -/
def Asked (start count nonce : UInt64) : Prop :=
  start ≤ nonce ∧ nonce.toNat < start.toNat + count.toNat

theorem lt_stopOf_iff {nonce : UInt64} :
    nonce.toNat < stopOf start (some count) ↔
      nonce.toNat < start.toNat + count.toNat ∧ nonce ≠ 18446744073709551615 := by
  have hword := nonce.toNat_lt
  have hne : nonce ≠ 18446744073709551615 ↔ nonce.toNat ≠ 18446744073709551615 :=
    not_congr UInt64.toNat_inj.symm
  rw [stopOf, hne]
  omega

/-! ## The highest nonce -/

theorem exists_accepts_lenient (files : Files) (nonce : UInt64) :
    ∃ digest, Accepts .single files fewestRounds lenientTemplate.texts (wordText nonce) digest := by
  have hs := settings_fewestRounds .single files
  obtain ⟨m, bound, hm, hok, hlist⟩ :=
    usable_lenientTemplate.exists_miner (Machine.single_starts _) hs
  have hresult := m.verify_of_ofSettings hm hok nonce
  rw [meets_highest hlist] at hresult
  exact ⟨_, accepts_of_verify (o := fewestRounds) nofun hs lenientTemplate.decode_texts hresult⟩

/-- With valid settings, threads that can be started and a usable template, a line that mines prints
a solution just when one of the nonces it is asked for is valid, and warns just when none is, where
the highest word does not count among them. -/
theorem mine_line_covers (machine : Machine) (files : Files) {arguments : List String}
    {o : Overrides} {t : TemplateText} {start count : UInt64} {s : Settings} {b : Template}
    (h : Invocation.ofArguments? arguments = some (.run o (.mine t start (some count))))
    (hs : settings machine files o = .ok s) (hpool : machine.Starts s.threads)
    (ht : t.decode = .ok b) (hb : b.Usable) :
    ∃ run, program machine files arguments = some run ∧ run.status = 0 ∧
      (run.PrintsSolution ↔ ∃ nonce, Asked start count nonce ∧ nonce ≠ 18446744073709551615 ∧
        ∃ digest, Accepts machine files o t (wordText nonce) digest) ∧
      (run.WarnsOfNone ↔ ∀ nonce, Asked start count nonce → nonce ≠ 18446744073709551615 →
        Refuses machine files o t (wordText nonce)) := by
  obtain ⟨run, hrun, hsettled⟩ := exists_settled h hs hpool ht hb
  refine ⟨run, hrun, hsettled.status_eq, ?_, ?_⟩
  · rw [hsettled.printsSolution_iff]
    simp only [lt_stopOf_iff, Asked, and_assoc]
  · rw [hsettled.warnsOfNone_iff]
    simp only [lt_stopOf_iff, Asked, and_imp]

theorem mine_line_covers_lenient :
    Invocation.ofArguments? (line fewestRounds (.mine lenientTemplate.texts 5 (some 3))) =
        some (.run fewestRounds (.mine lenientTemplate.texts 5 (some 3))) ∧
      settings .single (fun _ => none) fewestRounds =
        .ok { Settings.default .single with rounds := 256 } ∧
      Machine.single.Starts 1 ∧
      lenientTemplate.texts.decode = .ok lenientTemplate ∧ lenientTemplate.Usable ∧
      ∃ run, program .single (fun _ => none)
          (line fewestRounds (.mine lenientTemplate.texts 5 (some 3))) = some run ∧
        run.status = 0 ∧ run.PrintsSolution ∧ ¬run.WarnsOfNone := by
  have hline := ofArguments?_line (o := fewestRounds) nofun
    (.mine lenientTemplate.texts 5 (some 3))
  have hs := settings_fewestRounds .single fun _ => none
  have hpool := Machine.single_starts 1
  have ht := lenientTemplate.decode_texts
  obtain ⟨run, hrun, hstatus, hprints, hwarns⟩ :=
    mine_line_covers .single (fun _ => none) hline hs hpool ht usable_lenientTemplate
  obtain ⟨digest, haccepts⟩ := exists_accepts_lenient (fun _ => none) 5
  have hasked : Asked 5 3 5 := ⟨by decide, by decide⟩
  refine ⟨hline, hs, hpool, ht, usable_lenientTemplate, run, hrun, hstatus, ?_, ?_⟩
  · exact hprints.mpr ⟨5, hasked, by decide, digest, haccepts⟩
  · intro hnone
    exact (hwarns.mp hnone 5 hasked (by decide)).not_accepts haccepts

/-- A line that is asked for the highest word alone warns that it is not valid, and a line that
checks it accepts it. -/
theorem mine_line_omits_highest :
    ∃ run, program .single (fun _ => none) (line fewestRounds
        (.mine lenientTemplate.texts 18446744073709551615 (some 1))) = some run ∧
      run.status = 0 ∧ ¬run.PrintsSolution ∧ run.WarnsOfNone ∧
      Asked 18446744073709551615 1 18446744073709551615 ∧
      ∃ digest, Accepts .single (fun _ => none) fewestRounds lenientTemplate.texts
        "18446744073709551615" digest := by
  have hline := ofArguments?_line (o := fewestRounds) nofun
    (.mine lenientTemplate.texts 18446744073709551615 (some 1))
  obtain ⟨run, hrun, hsettled⟩ := exists_settled hline (settings_fewestRounds .single fun _ => none)
    (Machine.single_starts _) lenientTemplate.decode_texts usable_lenientTemplate
  have htext : wordText 18446744073709551615 = "18446744073709551615" := by decide +kernel
  have hnone (nonce : UInt64) (hstart : 18446744073709551615 ≤ nonce) :
      ¬nonce.toNat < stopOf 18446744073709551615 (some 1) :=
    Nat.not_lt.mpr (UInt64.le_iff_toNat_le.mp hstart)
  refine ⟨run, hrun, hsettled.status_eq, ?_, ?_, ⟨by decide, by decide⟩, ?_⟩
  · rw [hsettled.printsSolution_iff]
    rintro ⟨nonce, hstart, hstop, -⟩
    exact hnone nonce hstart hstop
  · rw [hsettled.warnsOfNone_iff]
    intro nonce hstart hstop
    exact absurd hstop (hnone nonce hstart)
  · rw [← htext]
    exact exists_accepts_lenient (fun _ => none) 18446744073709551615

end Padwork.CommandLine

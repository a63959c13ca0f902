import Bakaneko.PackageUpdates
import Bakaneko.PageReports
import Bakaneko.Serialisable
import Bakaneko.UpdateRows

/-!
# The table of updates after many rounds

The handler compares a row with the record at its place and leaves the old
version to a row that keeps its name. A row therefore shows the name and the
new version of the last message, and the old version of the first message since
which it has had this name. The rounds of a host with `apt` are such messages.
-/

set_option autoImplicit false

namespace Bakaneko.UpdateHistory
open Bakaneko.Native Bakaneko.Messages Bakaneko.RowModels Bakaneko.UpdateRows
open Bakaneko.JsonText Bakaneko.JsonValues Bakaneko.Rest Bakaneko.SystemBus Bakaneko.PageReports
open Bakaneko.PackageUpdates Bakaneko.Serialisable Bakaneko.Text

def updatesAfter (history : List Updates) : UpdateModel :=
  history.foldl (fun m info => handleUpdates info m) {}

/-- The message has a record with this name at this place. -/
def Names (i : ℕ) (name : Bytes) (info : Updates) : Prop :=
  ∃ u, info.updates[i]? = some u ∧ u.name = name

/-- A row that shows the last record, with the old version of the first message
since which its place has had the name. -/
structure ShownSince (i : ℕ) (history : List Updates) (u row : Update) : Prop where
  name : row.name = u.name
  newVersion : row.newVersion = u.newVersion
  oldVersion : ∃ before first since, history = before++first::since ∧
    (∀ info ∈ first::since, Names i u.name info) ∧
    (∀ info ∈ before.getLast?, ¬ Names i u.name info) ∧
    ∃ r, first.updates[i]? = some r ∧ row.oldVersion = r.oldVersion

theorem updatesAfter_concat (past : List Updates) (info : Updates) :
    updatesAfter (past++[info]) = handleUpdates info (updatesAfter past) := by
  rw [updatesAfter, List.foldl_append]
  rfl

theorem updatesAfter_count (past : List Updates) (info : Updates) :
    (updatesAfter (past++[info])).updates.length = info.updates.length := by
  rw [updatesAfter_concat]
  exact (updateRows_count _ _ _).trans (resize_count _ _)

/-- A row whose place had another name, or none, takes the whole record. -/
theorem shown_first (i : ℕ) (past : List Updates) (info : Updates) (u row : Update)
    (hu : info.updates[i]? = some u) (hpast : ∀ info ∈ past.getLast?, ¬ Names i u.name info)
    (hrow : row.name ≠ u.name) : ShownSince i (past++[info]) u (settle u row) := by
  rw [settle, if_pos hrow]
  refine ⟨rfl, rfl, past, info, [], rfl, ?_, hpast, u, hu, rfl⟩
  intro other hother
  rw [List.mem_singleton.mp hother]
  exact ⟨u, hu, rfl⟩

/-- A row that keeps its name keeps its old version. -/
theorem shown_again (i : ℕ) (past : List Updates) (info : Updates) (v u row : Update)
    (hu : info.updates[i]? = some u) (hname : v.name = u.name) (h : ShownSince i past v row) :
    ShownSince i (past++[info]) u (settle u row) := by
  obtain ⟨before, first, since, rfl, hsince, hbefore, r, hr, hold⟩ := h.oldVersion
  have hkept : row.name = u.name := h.name.trans hname
  rw [settle, if_neg (not_not.mpr hkept)]
  rw [hname] at hsince hbefore
  refine ⟨hkept, rfl, before, first, since++[info], by simp, ?_, hbefore, r, hr, hold⟩
  intro other hother
  rcases List.mem_append.mp (by simpa using hother : other ∈ (first::since)++[info]) with h | h
  · exact hsince other h
  · rw [List.mem_singleton.mp h]
    exact ⟨u, hu, rfl⟩

/-- After any messages whose records have names. -/
theorem updates_since (past : List Updates) (info : Updates)
    (hnames : ∀ info' ∈ past++[info], ∀ u ∈ info'.updates, u.name ≠ []) (i : ℕ) (u : Update)
    (hu : info.updates[i]? = some u) :
    ∃ row, (updatesAfter (past++[info])).updates[i]? = some row ∧
      ShownSince i (past++[info]) u row := by
  induction past using List.reverseRecOn generalizing info u with
  | nil =>
    rw [updatesAfter_concat, handleUpdates_row info _ i u hu]
    refine ⟨_, rfl, shown_first i [] info u _ hu nofun ?_⟩
    exact (hnames info (by simp) u (List.mem_of_getElem? hu)).symm
  | append_singleton past last ih =>
    have hnext : ∀ info ∈ past++[last], ∀ u ∈ info.updates, u.name ≠ [] :=
      fun info hinfo => hnames info (List.mem_append_left _ hinfo)
    have hcount := updatesAfter_count past last
    rw [updatesAfter_concat, handleUpdates_row info _ i u hu]
    refine ⟨_, rfl, ?_⟩
    cases hv : last.updates[i]? with
    | none =>
      have hnone : (updatesAfter (past++[last])).updates[i]? = none := by
        rw [List.getElem?_eq_none_iff, hcount]
        exact List.getElem?_eq_none_iff.mp hv
      rw [hnone]
      refine shown_first i _ info u _ hu ?_ ?_
      · rintro other hother ⟨v, hv', -⟩
        obtain rfl : last = other := by simpa using hother
        rw [hv] at hv'
        cases hv'
      · exact (hnames info (by simp) u (List.mem_of_getElem? hu)).symm
    | some v =>
      obtain ⟨row, hrow, hshown⟩ := ih last hnext v hv
      rw [hrow]
      by_cases hname : v.name = u.name
      · exact shown_again i _ info v u row hu hname hshown
      · refine shown_first i _ info u row hu ?_ fun h => hname (hshown.name.symm.trans h)
        rintro other hother ⟨w, hw, hwu⟩
        obtain rfl : last = other := by simpa using hother
        obtain rfl : v = w := Option.some.inj (hv.symm.trans hw)
        exact hname hwu

/-- A moment of a host: what its package managers list, all of it with names. -/
structure UpdateRound where
  host : Host
  manager : Option ServiceManager
  exec : DriveList.Exec
  listed : Updates
  lists : listUpdates exec = .ok listed
  named : ∀ u ∈ listed.updates, u.name ≠ []

def UpdateRound.report (r : UpdateRound) : Report :=
  ⟨{ r.host with updates := (DriveList.raise (listUpdates r.exec)).map .ok }, r.manager⟩

def UpdateUtf8 (u : Update) : Prop :=
  Utf8.Valid u.source ∧ Utf8.Valid u.name ∧ Utf8.Valid u.oldVersion ∧ Utf8.Valid u.newVersion

instance (u : Update) : Decidable (UpdateUtf8 u) := inferInstanceAs (Decidable (_ ∧ _ ∧ _ ∧ _))

def UpdateRound.Sendable (r : UpdateRound) : Prop := ∀ u ∈ r.listed.updates, UpdateUtf8 u

instance (r : UpdateRound) : Decidable r.Sendable := inferInstanceAs (Decidable (∀ _ ∈ _, _))

theorem updates_utf8 (info : Updates) :
    AllUtf8 info.toJson ↔ ∀ u ∈ info.updates, UpdateUtf8 u := by
  rw [Updates.toJson, allUtf8_record Updates.keys _ rfl (by decide +kernel)]
  simp only [List.forall_mem_singleton, allUtf8_list]
  refine forall₂_congr fun u _ => ?_
  rw [Update.toJson, allUtf8_record Update.keys _ rfl (by decide +kernel)]
  simp only [List.forall_mem_cons, allUtf8_text, List.not_mem_nil, false_implies, implies_true,
    and_true]
  rfl

section
variable (json : Nlohmann)

/-- What the client has been sent of some rounds. -/
def sentUpdates (rounds : List UpdateRound) : List Updates :=
  updatesPage.received json (rounds.map UpdateRound.report)

theorem sentUpdates_eq (hjson : Inverse json) (hstrict : Strict json)
    (rounds : List UpdateRound) :
    sentUpdates json rounds = (rounds.filter (·.Sendable)).map UpdateRound.listed := by
  have houtcome : ∀ r : UpdateRound, updatesPage.outcome r.report = .ok (.ok r.listed) := by
    intro r
    show (DriveList.raise (listUpdates r.exec)).map Except.ok = _
    rw [r.lists]
    rfl
  have hsent := updates_served.received_listed json hjson hstrict UpdateRound.report
    UpdateRound.listed houtcome (fun _ => trivial) rounds
  refine hsent.trans (congrArg (List.map _) (List.filter_congr fun r _ => ?_))
  exact decide_eq_decide.mpr (updates_utf8 r.listed)

/-- Behind a round that is sent the client has a row for every package, in the
order of the package manager. Whatever named packages the rounds before it
listed, it shows the name and the new version of the package, and the old version
that was listed in the first of the rounds since which its place has had this
name. -/
theorem packages_since (hjson : Inverse json) (hstrict : Strict json) (before : List UpdateRound)
    (last : UpdateRound) (hlast : last.Sendable) :
    (updatesAfter (sentUpdates json (before++[last]))).updates.length =
      last.listed.updates.length ∧
    ∀ i u, last.listed.updates[i]? = some u →
      ∃ row, (updatesAfter (sentUpdates json (before++[last]))).updates[i]? = some row ∧
        ShownSince i (((before++[last]).filter (·.Sendable)).map UpdateRound.listed) u row := by
  have hsent : ((before++[last]).filter (·.Sendable)).map UpdateRound.listed =
      (before.filter (·.Sendable)).map UpdateRound.listed++[last.listed] := by
    rw [List.filter_append, List.map_append, List.filter_cons_of_pos (by simpa using hlast)]
    rfl
  have hnames : ∀ info ∈ (before.filter (·.Sendable)).map UpdateRound.listed++[last.listed],
      ∀ u ∈ info.updates, u.name ≠ [] := by
    intro info hinfo
    rw [← hsent] at hinfo
    obtain ⟨r, -, rfl⟩ := List.mem_map.mp hinfo
    exact r.named
  rw [sentUpdates_eq json hjson hstrict, hsent]
  exact ⟨updatesAfter_count _ _, updates_since _ last.listed hnames⟩

end

/-- A host with `pacman` that lists one package. -/
def pacmanRound (p : Package) (hsize : (unlines [p.pacmanLine]).length < 18446744073709551616) :
    UpdateRound where
  host := busDown
  manager := none
  exec := answers (bytes "pacman") (bytes "-Qu") [p.pacmanLine]
  listed := ⟨[p.listed]⟩
  lists := listUpdates_pacman _ [p] (answers_prints _ _ _ hsize)
    (answers_fails _ _ _ _ _ (by decide)) (answers_fails _ _ _ _ _ (by decide))
  named u hu := by
    rw [List.mem_singleton.mp hu]
    exact p.name.nonempty

theorem three_plain : (51 : UInt8) ≠ 32 ∧ (51 : UInt8) ≠ 10 := by decide

/-- The same package once more, updated in between: `a 2 -> 3`. -/
def samePackage : Package :=
  { onePackage with old := onePackage.new, new := wordOf 51 three_plain }

/-- The row shows the new version of the second round. -/
theorem packages_since_same : ∃ row,
    (updatesAfter (sentUpdates library [pacmanRound onePackage (by decide),
      pacmanRound samePackage (by decide)])).updates[0]? = some row ∧
    row.name = [97] ∧ row.newVersion = [51] ∧
    ShownSince 0 [⟨[onePackage.listed]⟩, ⟨[samePackage.listed]⟩] samePackage.listed row := by
  have hsendable : [pacmanRound onePackage (by decide), pacmanRound samePackage (by decide)].filter
      (·.Sendable) = [pacmanRound onePackage (by decide), pacmanRound samePackage (by decide)] :=
    List.filter_eq_self.mpr (by decide +kernel)
  obtain ⟨-, hrows⟩ := packages_since library library_inverse library_strict
    [pacmanRound onePackage (by decide)] (pacmanRound samePackage (by decide)) (by decide +kernel)
  obtain ⟨row, hrow, hshown⟩ := hrows 0 samePackage.listed rfl
  rw [List.singleton_append, hsendable] at hshown
  exact ⟨row, hrow, hshown.name, hshown.newVersion, hshown⟩

end Bakaneko.UpdateHistory

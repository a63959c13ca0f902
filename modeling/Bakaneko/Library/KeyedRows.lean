import Mathlib.Data.List.Basic
import Mathlib.Data.List.Nodup
import Mathlib.Data.List.Induction
import Mathlib.Tactic.Common

/-!
# Rows kept by key

A table of rows is brought up to date by a message of records. Rows whose key
the message does not name are dropped, each record refreshes the rows with
its key, and a record without a row makes a new one at the end. The result
is computed key by key: what a row holds is its old content refreshed by the
records with its key, one after the other.
-/

set_option autoImplicit false

namespace KeyedRows

variable {ρ μ κ : Type*} [DecidableEq κ]
variable (rowKey : ρ → κ) (recordKey : μ → κ) (refresh : μ → ρ → ρ) (make : μ → ρ)

def place (rows : List ρ) (m : μ) : List ρ :=
  if rows.any fun r => rowKey r = recordKey m then
    rows.map fun r => if rowKey r = recordKey m then refresh m r else r
  else rows++[make m]

def prune (records : List μ) (rows : List ρ) : List ρ :=
  rows.filter fun r => records.any fun m => recordKey m = rowKey r

def reconcile (records : List μ) (rows : List ρ) : List ρ :=
  records.foldl (place rowKey recordKey refresh make) (prune rowKey recordKey records rows)

def recordsOf (k : κ) (records : List μ) : List μ := records.filter fun m => recordKey m = k

def refreshed (records : List μ) (r : ρ) : ρ := records.foldl (fun r m => refresh m r) r

/-- A new row, made of the first record and refreshed by the others. -/
def content : List μ → Option ρ
  | [] => none
  | m::records => some (refreshed refresh records (make m))

/-- Each key once, in the order of their first occurrence. -/
def firsts (keys : List κ) : List κ := keys.eraseDups

/-- The keys a message adds. -/
def freshKeys (keys : List κ) (records : List μ) : List κ :=
  firsts ((records.map recordKey).filter fun k => !keys.any (· = k))

def keptKeys (keys : List κ) (records : List μ) : List κ :=
  keys.filter fun k => records.any fun m => recordKey m = k

/-- A new row has its record's key, and a refreshed row keeps its own. -/
structure KeepsKey : Prop where
  make : ∀ m, rowKey (make m) = recordKey m
  refresh : ∀ m r, rowKey r = recordKey m → rowKey (refresh m r) = recordKey m

variable {rowKey recordKey refresh make}

omit [DecidableEq κ] in
theorem refreshed_key (h : KeepsKey rowKey recordKey refresh make) (records : List μ) (r : ρ)
    (hr : ∀ m ∈ records, recordKey m = rowKey r) :
    rowKey (refreshed refresh records r) = rowKey r := by
  induction records generalizing r with
  | nil => rfl
  | cons m records ih =>
    have hm : recordKey m = rowKey r := hr m (by simp)
    have hk : rowKey (refresh m r) = rowKey r := (h.refresh m r hm.symm).trans hm
    rw [refreshed, List.foldl_cons]
    exact (ih (refresh m r) fun n hn => (hr n (by simp [hn])).trans hk.symm).trans hk

theorem mem_recordsOf (k : κ) (records : List μ) (m : μ) :
    m ∈ recordsOf recordKey k records ↔ m ∈ records ∧ recordKey m = k := by
  simp [recordsOf]

theorem recordsOf_cons (k : κ) (m : μ) (records : List μ) :
    recordsOf recordKey k (m::records) =
      if recordKey m = k then m::recordsOf recordKey k records
      else recordsOf recordKey k records := by
  simp [recordsOf, List.filter_cons]

theorem any_key (keys : List κ) (k : κ) : keys.any (· = k) = true ↔ k ∈ keys := by
  simp

theorem mem_freshKeys (keys : List κ) (records : List μ) (k : κ) :
    k ∈ freshKeys recordKey keys records ↔ k ∈ records.map recordKey ∧ k ∉ keys := by
  rw [freshKeys, firsts, List.mem_eraseDups, List.mem_filter, ← any_key keys k, Bool.not_eq_true,
    Bool.not_eq_true']

theorem mem_keptKeys (keys : List κ) (records : List μ) (k : κ) :
    k ∈ keptKeys recordKey keys records ↔ k ∈ keys ∧ k ∈ records.map recordKey := by
  simp [keptKeys]

theorem freshKeys_present (keys : List κ) (m : μ) (records : List μ) (h : recordKey m ∈ keys) :
    freshKeys recordKey keys (m::records) = freshKeys recordKey keys records := by
  have hany : keys.any (· = recordKey m) = true := by simpa using h
  simp [freshKeys, hany]

theorem freshKeys_absent (keys : List κ) (m : μ) (records : List μ) (h : recordKey m ∉ keys) :
    freshKeys recordKey keys (m::records) =
      recordKey m::freshKeys recordKey (keys++[recordKey m]) records := by
  have hany : keys.any (· = recordKey m) = false :=
    Bool.eq_false_iff.mpr fun hk => h ((any_key _ _).mp hk)
  have hfilter : ((records.map recordKey).filter fun k => !keys.any (· = k)).filter
      (fun k => !k == recordKey m) =
      (records.map recordKey).filter fun k => !(keys++[recordKey m]).any (· = k) := by
    rw [List.filter_filter]
    congr 1
    funext k
    by_cases hk : k = recordKey m
    · simp [hk]
    · simp [hk, Ne.symm hk]
  simp only [freshKeys, firsts, List.map_cons, List.filter_cons, hany, Bool.not_false, if_true,
    List.eraseDups_cons, hfilter]

theorem firsts_nodup (keys : List κ) : (firsts keys).Nodup := by
  unfold firsts
  induction h : keys.length using Nat.strongRecOn generalizing keys with
  | ind n ih =>
    cases keys with
    | nil => simp
    | cons k keys =>
      rw [List.eraseDups_cons, List.nodup_cons]
      have hlen : (keys.filter fun b => !b == k).length < n := by
        have := List.length_filter_le (fun b => !b == k) keys
        rw [List.length_cons] at h
        omega
      exact ⟨by simp, ih _ hlen _ rfl⟩

theorem mem_firsts (keys : List κ) (k : κ) : k ∈ firsts keys ↔ k ∈ keys := List.mem_eraseDups

theorem firsts_prefix (keys rest : List κ) : firsts keys <+: firsts (keys++rest) := by
  rw [firsts, firsts, List.eraseDups_append]
  exact List.prefix_append _ _

theorem firsts_concat (keys : List κ) (k : κ) :
    firsts (keys++[k]) = if k ∈ keys then firsts keys else firsts keys++[k] := by
  rw [firsts, firsts, List.eraseDups_append]
  by_cases hk : k ∈ keys <;> simp [List.removeAll, hk, List.eraseDups_cons]

/-- What came before the first of a key stands in front of it. -/
theorem takeWhile_firsts (front rest : List κ) (k : κ) (hk : k ∉ front) :
    (firsts (front++k::rest)).takeWhile (· ≠ k) = firsts front := by
  have hpre := firsts_prefix (front++[k]) rest
  rw [firsts_concat, if_neg hk, List.append_assoc, List.singleton_append] at hpre
  obtain ⟨behind, hbehind⟩ := hpre
  have hall : ∀ j ∈ firsts front, decide (j ≠ k) = true :=
    fun j hj => decide_eq_true fun he => hk (he ▸ (mem_firsts front j).mp hj)
  rw [← hbehind, List.append_assoc, List.takeWhile_append_of_pos hall]
  simp

theorem refresh_keys (h : KeepsKey rowKey recordKey refresh make) (m : μ) (rows : List ρ) :
    (rows.map fun r => if rowKey r = recordKey m then refresh m r else r).map rowKey =
      rows.map rowKey := by
  rw [List.map_map]
  apply List.map_congr_left
  intro r hr
  by_cases hk : rowKey r = recordKey m
  · simp [hk, h.refresh m r hk]
  · simp [hk]

theorem refreshed_cons (h : KeepsKey rowKey recordKey refresh make) (m : μ) (records : List μ)
    (r s : ρ) (hs : (if rowKey r = recordKey m then refresh m r else r) = s) :
    refreshed refresh (recordsOf recordKey (rowKey s) records) s =
      refreshed refresh (recordsOf recordKey (rowKey r) (m::records)) r := by
  rw [recordsOf_cons, ← hs]
  by_cases hk : rowKey r = recordKey m
  · simp [hk, h.refresh m r hk, refreshed]
  · simp [hk, Ne.symm hk]

/-- A record says nothing about the rows with other keys. -/
theorem contents_other (m : μ) (records : List μ) (keys : List κ) (hm : recordKey m ∉ keys) :
    (keys.filterMap fun k => content refresh make (recordsOf recordKey k records)) =
      keys.filterMap fun k => content refresh make (recordsOf recordKey k (m::records)) := by
  apply List.filterMap_congr
  intro k hk
  have hne : recordKey m ≠ k := fun he => hm (he ▸ hk)
  rw [recordsOf_cons, if_neg hne]

/-- The rows that exist are refreshed by their records, the others follow. -/
theorem foldl_place (h : KeepsKey rowKey recordKey refresh make) (records : List μ)
    (rows : List ρ) :
    records.foldl (place rowKey recordKey refresh make) rows =
      rows.map (fun r => refreshed refresh (recordsOf recordKey (rowKey r) records) r) ++
      (freshKeys recordKey (rows.map rowKey) records).filterMap
        fun k => content refresh make (recordsOf recordKey k records) := by
  induction records generalizing rows with
  | nil => simp [freshKeys, firsts, recordsOf, refreshed]
  | cons m records ih =>
    rw [List.foldl_cons, ih, place]
    by_cases hm : recordKey m ∈ rows.map rowKey
    · have hany : (rows.any fun r => rowKey r = recordKey m) = true := by simpa using hm
      rw [if_pos hany, refresh_keys h, freshKeys_present _ m records hm, List.map_map]
      congr 1
      · apply List.map_congr_left
        intro r hr
        exact refreshed_cons h m records r _ rfl
      · exact contents_other m records _ fun hk => ((mem_freshKeys _ _ _).mp hk).2 hm
    · have hany : (rows.any fun r => rowKey r = recordKey m) = false := by simpa using hm
      rw [if_neg (by simp [hany]), freshKeys_absent _ m records hm, List.map_append,
        List.map_singleton, List.map_append, List.map_singleton, h.make, List.append_assoc,
        List.filterMap_cons, recordsOf_cons, if_pos rfl]
      congr 1
      · apply List.map_congr_left
        intro r hr
        have hne : recordKey m ≠ rowKey r := fun he => hm (he ▸ List.mem_map_of_mem hr)
        rw [recordsOf_cons, if_neg hne]
      · rw [contents_other m records _ fun hk => ((mem_freshKeys _ _ _).mp hk).2 (by simp)]
        rfl

theorem mem_records_key (k : κ) (records : List μ) :
    k ∈ records.map recordKey ↔ recordsOf recordKey k records ≠ [] := by
  constructor
  · intro h
    obtain ⟨m, hm, rfl⟩ := List.mem_map.mp h
    exact List.ne_nil_of_mem ((mem_recordsOf _ records m).mpr ⟨hm, rfl⟩)
  · intro h
    obtain ⟨m, hm⟩ := List.exists_mem_of_ne_nil _ h
    obtain ⟨hin, rfl⟩ := (mem_recordsOf _ records m).mp hm
    exact List.mem_map_of_mem hin

theorem content_some (records : List μ) (h : records ≠ []) :
    ∃ m rest, records = m::rest ∧ content refresh make records =
      some (refreshed refresh rest (make m)) := by
  cases records with
  | nil => exact absurd rfl h
  | cons m rest => exact ⟨m, rest, rfl, rfl⟩

theorem content_key (h : KeepsKey rowKey recordKey refresh make) (k : κ) (records : List μ) (r : ρ)
    (hr : content refresh make (recordsOf recordKey k records) = some r) : rowKey r = k := by
  cases hs : recordsOf recordKey k records with
  | nil => simp [hs, content] at hr
  | cons m rest =>
    have hkey : ∀ n ∈ m::rest, recordKey n = k :=
      fun n hn => ((mem_recordsOf k records n).mp (hs ▸ hn)).2
    obtain rfl : refreshed refresh rest (make m) = r := by simpa [hs, content] using hr
    have hm : rowKey (make m) = k := (h.make m).trans (hkey m (by simp))
    rw [refreshed_key h rest (make m) fun n hn => (hkey n (by simp [hn])).trans hm.symm, hm]

theorem prune_cons (records : List μ) (r : ρ) (rows : List ρ) :
    prune rowKey recordKey records (r::rows) =
      if records.any fun m => recordKey m = rowKey r then
        r::prune rowKey recordKey records rows
      else prune rowKey recordKey records rows := List.filter_cons

theorem prune_keys (records : List μ) (rows : List ρ) :
    (prune rowKey recordKey records rows).map rowKey =
      keptKeys recordKey (rows.map rowKey) records := by
  rw [prune, keptKeys, List.filter_map]
  rfl

theorem freshKeys_prune (records : List μ) (rows : List ρ) :
    freshKeys recordKey ((prune rowKey recordKey records rows).map rowKey) records =
      freshKeys recordKey (rows.map rowKey) records := by
  unfold freshKeys
  congr 1
  apply List.filter_congr
  intro k hk
  have hiff : k ∈ (prune rowKey recordKey records rows).map rowKey ↔ k ∈ rows.map rowKey := by
    rw [prune_keys, mem_keptKeys]
    exact and_iff_left hk
  rw [Bool.not_inj_iff, Bool.eq_iff_iff, any_key, any_key, hiff]

theorem reconcile_eq (h : KeepsKey rowKey recordKey refresh make) (records : List μ)
    (rows : List ρ) :
    reconcile rowKey recordKey refresh make records rows =
      (prune rowKey recordKey records rows).map
        (fun r => refreshed refresh (recordsOf recordKey (rowKey r) records) r) ++
      (freshKeys recordKey (rows.map rowKey) records).filterMap
        fun k => content refresh make (recordsOf recordKey k records) := by
  rw [reconcile, foldl_place h, freshKeys_prune]

theorem fresh_keys (h : KeepsKey rowKey recordKey refresh make) (keys : List κ)
    (records : List μ) (hk : ∀ k ∈ keys, k ∈ records.map recordKey) :
    (keys.filterMap fun k => content refresh make (recordsOf recordKey k records)).map rowKey =
      keys := by
  induction keys with
  | nil => rfl
  | cons k keys ih =>
    obtain ⟨m, rest, hs, hc⟩ : ∃ m rest, recordsOf recordKey k records = m::rest ∧
        content refresh make (recordsOf recordKey k records) =
          some (refreshed refresh rest (make m)) :=
      content_some _ ((mem_records_key k records).mp (hk k (by simp)))
    rw [List.filterMap_cons, hc, List.map_cons, ih fun j hj => hk j (by simp [hj]),
      content_key h k records _ hc]

/-- The keys that survive keep their order, and the new ones follow. -/
theorem reconcile_keys (h : KeepsKey rowKey recordKey refresh make) (records : List μ)
    (rows : List ρ) :
    (reconcile rowKey recordKey refresh make records rows).map rowKey =
      keptKeys recordKey (rows.map rowKey) records++
        freshKeys recordKey (rows.map rowKey) records := by
  rw [reconcile_eq h, List.map_append, List.map_map,
    fresh_keys h _ records fun k hk => ((mem_freshKeys _ _ k).mp hk).1, ← prune_keys]
  congr 1
  apply List.map_congr_left
  intro r hr
  exact refreshed_key h _ r fun m hm => ((mem_recordsOf _ records m).mp hm).2

theorem mem_reconcile_keys (h : KeepsKey rowKey recordKey refresh make) (records : List μ)
    (rows : List ρ) (k : κ) :
    k ∈ (reconcile rowKey recordKey refresh make records rows).map rowKey ↔
      k ∈ records.map recordKey := by
  rw [reconcile_keys h, List.mem_append, mem_keptKeys, mem_freshKeys]
  by_cases hk : k ∈ rows.map rowKey <;> simp only [hk, true_and, false_and, not_true_eq_false,
    not_false_eq_true, and_false, and_true, or_false, false_or]

theorem reconcile_nodup (h : KeepsKey rowKey recordKey refresh make) (records : List μ)
    (rows : List ρ) (hn : (rows.map rowKey).Nodup) :
    ((reconcile rowKey recordKey refresh make records rows).map rowKey).Nodup := by
  rw [reconcile_keys h, List.nodup_append]
  refine ⟨hn.filter _, firsts_nodup _, fun k hk j hj he => ?_⟩
  rw [he] at hk
  exact ((mem_freshKeys _ _ j).mp hj).2 ((mem_keptKeys _ _ j).mp hk).1

/-- A row is an old one, refreshed, or the content of a key not seen before. -/
theorem mem_reconcile (h : KeepsKey rowKey recordKey refresh make) (records : List μ)
    (rows : List ρ) (r : ρ) (hr : r ∈ reconcile rowKey recordKey refresh make records rows) :
    recordsOf recordKey (rowKey r) records ≠ [] ∧
    ((∃ old ∈ rows, rowKey old = rowKey r ∧
      r = refreshed refresh (recordsOf recordKey (rowKey r) records) old) ∨
    (rowKey r ∉ rows.map rowKey ∧
      content refresh make (recordsOf recordKey (rowKey r) records) = some r)) := by
  have hkey := (mem_reconcile_keys h records rows (rowKey r)).mp (List.mem_map_of_mem hr)
  refine ⟨(mem_records_key _ _).mp hkey, ?_⟩
  rw [reconcile_eq h, List.mem_append] at hr
  cases hr with
  | inl hold =>
    obtain ⟨old, ho, rfl⟩ := List.mem_map.mp hold
    have hk : rowKey (refreshed refresh (recordsOf recordKey (rowKey old) records) old) =
        rowKey old :=
      refreshed_key h _ old fun m hm => ((mem_recordsOf _ records m).mp hm).2
    rw [hk]
    exact .inl ⟨old, (List.mem_filter.mp ho).1, rfl, rfl⟩
  | inr hnew =>
    obtain ⟨k, hk, hc⟩ := List.mem_filterMap.mp hnew
    obtain rfl := content_key h k records r hc
    exact .inr ⟨((mem_freshKeys _ _ _).mp hk).2, hc⟩

section
variable (rowKey recordKey refresh make)

/-- The table after a history of messages, the newest last. -/
def table (history : List (List μ)) : List ρ :=
  history.foldl (fun rows records => reconcile rowKey recordKey refresh make records rows) []

/-- The records with a key since a message last left it out. -/
def streak (k : κ) (history : List (List μ)) : List μ :=
  history.foldl (fun past records =>
    if (recordsOf recordKey k records).isEmpty then [] else past++recordsOf recordKey k records) []

end

theorem table_append (history : List (List μ)) (records : List μ) :
    table rowKey recordKey refresh make (history++[records]) =
      reconcile rowKey recordKey refresh make records
        (table rowKey recordKey refresh make history) := by
  simp [table]

theorem streak_append (k : κ) (history : List (List μ)) (records : List μ)
    (hr : recordsOf recordKey k records ≠ []) :
    streak recordKey k (history++[records]) =
      streak recordKey k history++recordsOf recordKey k records := by
  simp [streak, hr]

theorem streak_absent (h : KeepsKey rowKey recordKey refresh make) (k : κ)
    (history : List (List μ))
    (hk : k ∉ (table rowKey recordKey refresh make history).map rowKey) :
    streak recordKey k history = [] := by
  induction history using List.reverseRecOn with
  | nil => rfl
  | append_singleton history records _ =>
    rw [table_append, mem_reconcile_keys h, mem_records_key, not_not] at hk
    simp [streak, hk]

theorem table_nodup (h : KeepsKey rowKey recordKey refresh make) (history : List (List μ)) :
    ((table rowKey recordKey refresh make history).map rowKey).Nodup := by
  induction history using List.reverseRecOn with
  | nil => exact List.nodup_nil
  | append_singleton history records ih =>
    rw [table_append]
    exact reconcile_nodup h records _ ih

/-- A row holds what the records of its streak have left in it. -/
theorem table_content (h : KeepsKey rowKey recordKey refresh make) (history : List (List μ))
    (r : ρ) (hr : r ∈ table rowKey recordKey refresh make history) :
    content refresh make (streak recordKey (rowKey r) history) = some r := by
  induction history using List.reverseRecOn generalizing r with
  | nil => simp [table] at hr
  | append_singleton history records ih =>
    rw [table_append] at hr
    obtain ⟨hne, ⟨old, ho, hk, hold⟩ | ⟨habsent, hc⟩⟩ := mem_reconcile h records _ r hr
    · rw [streak_append _ history records hne]
      have hpast := ih old ho
      rw [hk] at hpast
      cases hs : streak recordKey (rowKey r) history with
      | nil => simp [hs, content] at hpast
      | cons m rest =>
        obtain rfl : refreshed refresh rest (make m) = old := by simpa [hs, content] using hpast
        rw [List.cons_append, content, refreshed, List.foldl_append]
        exact congrArg some hold.symm
    · rw [streak_append _ history records hne, streak_absent h _ history habsent]
      exact hc

/-- The streak of a key starts with a message behind one that left it out. -/
theorem streak_since (k : κ) (history : List (List μ)) (hs : streak recordKey k history ≠ []) :
    ∃ before first since, history = before++first::since ∧
      (∀ records ∈ first::since, k ∈ records.map recordKey) ∧
      (∀ records ∈ before.getLast?, k ∉ records.map recordKey) ∧
      streak recordKey k history = (first::since).flatMap (recordsOf recordKey k) := by
  induction history using List.reverseRecOn with
  | nil => exact absurd rfl hs
  | append_singleton history records ih =>
    have hnamed : recordsOf recordKey k records ≠ [] := by
      intro hnone
      exact hs (by simp [streak, hnone])
    rw [streak_append k history records hnamed]
    by_cases hpast : streak recordKey k history = []
    · refine ⟨history, records, [], rfl, ?_, ?_, by simp [hpast]⟩
      · simpa using (mem_records_key k records).mpr hnamed
      · intro last hlast hk
        obtain ⟨past, rfl⟩ := List.getLast?_eq_some_iff.mp hlast
        have hlast := (mem_records_key k last).mp hk
        rw [streak_append k past last hlast] at hpast
        exact hlast (List.append_eq_nil_iff.mp hpast).2
    · obtain ⟨before, first, since, rfl, hsince, hbefore, hstreak⟩ := ih hpast
      refine ⟨before, first, since++[records], by simp, ?_, hbefore, ?_⟩
      · intro other hother
        rw [← List.cons_append] at hother
        rcases List.mem_append.mp hother with hother | hother
        · exact hsince other hother
        · rw [List.mem_singleton.mp hother]
          exact (mem_records_key k records).mpr hnamed
      · rw [hstreak]
        simp

/-- What no record overwrites, a row has from the first one. -/
theorem content_first {γ : Type*} (f : μ → γ) (g : ρ → γ) (hmake : ∀ m, g (make m) = f m)
    (hrefresh : ∀ m r, g (refresh m r) = g r) (records : List μ) (r : ρ)
    (hc : content refresh make records = some r) :
    ∃ m rest, records = m::rest ∧ g r = f m := by
  cases records with
  | nil => cases hc
  | cons m rest =>
    obtain rfl : refreshed refresh rest (make m) = r := Option.some.inj hc
    refine ⟨m, rest, rfl, ?_⟩
    clear hc
    rw [← hmake m]
    generalize make m = start
    induction rest generalizing start with
    | nil => rfl
    | cons n rest ih => exact (ih (refresh n start)).trans (hrefresh n start)

/-- A row is new, or refreshed from the last record. -/
theorem content_cases (records : List μ) (r : ρ) (hc : content refresh make records = some r) :
    (∃ m, records = [m] ∧ r = make m) ∨
      ∃ m rest n, records = m::rest++[n] ∧ r = refresh n (refreshed refresh rest (make m)) := by
  cases records with
  | nil => cases hc
  | cons m rest =>
    obtain rfl : refreshed refresh rest (make m) = r := Option.some.inj hc
    cases rest using List.reverseRecOn with
    | nil => exact .inl ⟨m, rfl, rfl⟩
    | append_singleton rest n =>
      refine .inr ⟨m, rest, n, rfl, ?_⟩
      rw [refreshed, List.foldl_append]
      rfl

/-- What every record overwrites, a row has from the last one. -/
theorem content_last {γ : Type*} (f : μ → γ) (g : ρ → γ) (hmake : ∀ m, g (make m) = f m)
    (hrefresh : ∀ m r, g (refresh m r) = f m) (records : List μ) (r : ρ)
    (hc : content refresh make records = some r) :
    ∃ past m, records = past++[m] ∧ g r = f m := by
  obtain ⟨m, rfl, rfl⟩ | ⟨m, rest, n, rfl, rfl⟩ := content_cases records r hc
  · exact ⟨[], m, rfl, hmake m⟩
  · exact ⟨m::rest, n, rfl, hrefresh n _⟩

/-- What no record overwrites, a row has from the message since which its key
is there. -/
theorem table_since {γ : Type*} (h : KeepsKey rowKey recordKey refresh make) (f : μ → γ)
    (g : ρ → γ) (hmake : ∀ m, g (make m) = f m) (hrefresh : ∀ m r, g (refresh m r) = g r)
    (history : List (List μ)) (r : ρ) (hr : r ∈ table rowKey recordKey refresh make history) :
    ∃ before first since, history = before++first::since ∧
      (∀ records ∈ first::since, rowKey r ∈ records.map recordKey) ∧
      (∀ records ∈ before.getLast?, rowKey r ∉ records.map recordKey) ∧
      ∃ m ∈ first, recordKey m = rowKey r ∧ g r = f m := by
  have hcontent := table_content h history r hr
  obtain ⟨m, rest, hfirst, hkept⟩ := content_first f g hmake hrefresh _ r hcontent
  obtain ⟨before, first, since, hsplit, hsince, hbefore, hall⟩ :=
    streak_since (rowKey r) history (by rw [hfirst]; exact List.cons_ne_nil _ _)
  refine ⟨before, first, since, hsplit, hsince, hbefore, ?_⟩
  have hne := (mem_records_key (rowKey r) first).mp (hsince first List.mem_cons_self)
  obtain ⟨n, ns, hn⟩ := List.exists_cons_of_ne_nil hne
  rw [List.flatMap_cons, hn] at hall
  obtain rfl : m = n := List.head_eq_of_cons_eq (hfirst.symm.trans hall)
  obtain ⟨hm, hkey⟩ := (mem_recordsOf (rowKey r) first m).mp (hn ▸ List.mem_cons_self)
  exact ⟨m, hm, hkey, hkept⟩

/-- What every record overwrites, a row has from its one record in the last
message. -/
theorem table_last {γ : Type*} (h : KeepsKey rowKey recordKey refresh make) (f : μ → γ)
    (g : ρ → γ) (hmake : ∀ m, g (make m) = f m) (hrefresh : ∀ m r, g (refresh m r) = f m)
    (history : List (List μ)) (records : List μ) (m : μ) (r : ρ)
    (hr : r ∈ table rowKey recordKey refresh make (history++[records]))
    (hone : recordsOf recordKey (rowKey r) records = [m]) : g r = f m := by
  have hcontent := table_content h _ r hr
  rw [streak_append _ _ _ (by rw [hone]; exact List.cons_ne_nil _ _), hone] at hcontent
  obtain ⟨past, n, hlast, hg⟩ := content_last f g hmake hrefresh _ r hcontent
  obtain ⟨-, hn⟩ := List.append_inj' hlast rfl
  rw [hg, ← List.head_eq_of_cons_eq hn]

/-- What a refreshment saves of the row before it, is what the record before
the last has written; a new row has it from its own record. -/
theorem content_previous {γ : Type*} (f : μ → γ) (g p : ρ → γ) (hmake : ∀ m, g (make m) = f m)
    (hrefresh : ∀ m r, g (refresh m r) = f m) (hmake' : ∀ m, p (make m) = f m)
    (hsave : ∀ m r, p (refresh m r) = g r) (records : List μ) (r : ρ)
    (hc : content refresh make records = some r) :
    ∃ past m, records = past++[m] ∧ p r = f (past.getLast?.getD m) := by
  obtain ⟨m, rfl, rfl⟩ | ⟨m, rest, n, rfl, rfl⟩ := content_cases records r hc
  · exact ⟨[], m, rfl, hmake' m⟩
  · have hbefore : g (refreshed refresh rest (make m)) = f ((m::rest).getLast?.getD n) := by
      obtain ⟨past, l, hl, hg⟩ := content_last f g hmake hrefresh (m::rest) _ rfl
      rw [hl, List.getLast?_append]
      exact hg
    exact ⟨m::rest, n, rfl, (hsave n _).trans hbefore⟩

end KeyedRows

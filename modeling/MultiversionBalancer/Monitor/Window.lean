import MultiversionBalancer.Core.Sprintf
import Mathlib.Data.List.Infix
import Mathlib.Data.List.Count
import Mathlib.Data.List.Perm.Subperm

/-!
# The window of the monitor endpoint

`GET /monitor?s={interval}` of `monitoring_server.py` collects the lines of the
access log with the system states of the last seconds.  It goes through the
seconds one by one, keeps the time as hours, minutes and seconds, and finds the
lines of a second by the text of its time of day.

Local time is counted in seconds here, and a line of the log comes with the
second of its time stamp.  The local clock is taken not to be set back, so a
time of day occurs once a day.
-/

namespace MultiversionBalancer.Monitor

/-! ## Times of day -/

/-- The variables `h`, `m` and `s`. -/
structure TimeOfDay where
  h : ℤ
  m : ℤ
  s : ℤ
  deriving DecidableEq

def normalizeTime (t : TimeOfDay) : TimeOfDay :=
  let t :=
    if t.s < 0 then
      let t := { t with s := t.s + 60, m := t.m - 1 }
      if t.m < 0 then
        let t := { t with m := t.m + 60, h := t.h - 1 }
        if t.h < 0 then { t with h := t.h + 24 } else t
      else t
    else t
  if t.s > 59 then
    let t := { t with s := t.s - 60, m := t.m + 1 }
    if t.m > 59 then
      let t := { t with m := t.m - 60, h := t.h + 1 }
      if t.h > 23 then { t with h := t.h - 24 } else t
    else t
  else t

/-- `"{:02d}".format(n)`; the sign counts as one of the two characters. -/
def format02d (n : ℤ) : Text :=
  if n < 0 then '-' :: ngxSprintfNum n.natAbs '0' 1
  else ngxSprintfNum n.natAbs '0' 2

/-- `"{:02d}:{:02d}:{:02d}".format(h, m, s)`. -/
def TimeOfDay.text (t : TimeOfDay) : Text :=
  format02d t.h ++ ':' :: format02d t.m ++ ':' :: format02d t.s

def timeOfDay (k : ℤ) : TimeOfDay where
  h := k / 3600 % 24
  m := k / 60 % 60
  s := k % 60

/-- A time of day that a clock shows. -/
def TimeOfDay.Proper (t : TimeOfDay) : Prop :=
  0 ≤ t.h ∧ t.h ≤ 23 ∧ 0 ≤ t.m ∧ t.m ≤ 59 ∧ 0 ≤ t.s ∧ t.s ≤ 59

theorem timeOfDay_proper (k : ℤ) : (timeOfDay k).Proper := by
  unfold TimeOfDay.Proper timeOfDay
  dsimp only
  omega

/-! ## The log and the loop -/

/-- The lines that `grep "System State"` keeps. -/
def systemState : Text := "System State".toList

/-- A line of the access log, and the second of the local time in its time
stamp.  A system state shows the time of day of its stamp. -/
structure LogLine where
  text : Text
  stamp : ℤ
  stamped : systemState <:+: text → (timeOfDay stamp).text <:+: text
  deriving DecidableEq

def LogLine.isState (l : LogLine) : Bool :=
  decide (systemState <:+: l.text)

/-- The lines that both calls of `grep` keep. -/
def grepped (log : List LogLine) (t : TimeOfDay) : List LogLine :=
  log.filter fun l => l.isState && decide (t.text <:+: l.text)

/-- The times of day after `normalize_time` in `n` iterations of the loop. -/
def visited : ℕ → TimeOfDay → List TimeOfDay
  | 0, _ => []
  | n + 1, t =>
      let t := normalizeTime t
      t :: visited n { t with s := t.s + 1 }

/-- The loop of `do_GET` from the iteration `i` on, with `n` iterations left;
`status` is the file `system_status.txt`, which need not exist before. -/
def collect (log : List LogLine) :
    ℕ → ℕ → TimeOfDay → Option (List LogLine) → Option (List LogLine)
  | 0, _, _, status => status
  | n + 1, i, t, status =>
      let t := normalizeTime t
      let status :=
        if i = 0 then some (grepped log t)
        else some (status.getD [] ++ grepped log t)
      collect log n (i + 1) { t with s := t.s + 1 } status

/-- The time that `do_GET` starts with: the local time `now`, less the interval
in the seconds. -/
def firstTime (now interval : ℤ) : TimeOfDay :=
  { timeOfDay now with s := (timeOfDay now).s - interval }

/-- The lines that `do_GET` reads back; `none` when there is no file. -/
def doGetLines (log : List LogLine) (status : Option (List LogLine))
    (now : ℤ) (interval : ℕ) : Option (List LogLine) :=
  collect log interval 0 (firstTime now interval) status

/-- The seconds of the window, in order. -/
def window (now : ℤ) (interval : ℕ) : List ℤ :=
  (List.range interval).map fun i : ℕ => now - interval + i

/-- The system states with a stamp in the window. -/
def LogLine.InWindow (now : ℤ) (interval : ℕ) (l : LogLine) : Prop :=
  l.isState = true ∧ now - interval ≤ l.stamp ∧ l.stamp < now

instance (now : ℤ) (interval : ℕ) (l : LogLine) :
    Decidable (l.InWindow now interval) := by
  unfold LogLine.InWindow
  infer_instance

/-- What the endpoint is for: the loop visits the seconds of the window, and
every system state with a stamp in the window is read back once, in
chronological order, and nothing else. -/
structure ReturnsWindow (log : List LogLine) (status : Option (List LogLine))
    (now : ℤ) (interval : ℕ) : Prop where
  visits : visited interval (firstTime now interval) =
    (window now interval).map timeOfDay
  proper : ∀ t ∈ visited interval (firstTime now interval), t.Proper
  selects : ∃ lines, doGetLines log status now interval = some lines ∧
    lines.Perm (log.filter fun l => decide (l.InWindow now interval)) ∧
    lines.Pairwise fun a b => a.stamp ≤ b.stamp

/-- When it does so: the interval reaches back at most into the minute before,
no file is left over from a request before when nothing is collected, and a
system state shows no second of the window but its own. -/
structure WindowOk (log : List LogLine) (status : Option (List LogLine))
    (now : ℤ) (interval : ℕ) : Prop where
  short : (interval : ℤ) ≤ now % 60 + 60
  status_nil : interval = 0 → status = some []
  shows : ∀ l ∈ log, l.isState = true → ∀ k ∈ window now interval,
    (timeOfDay k).text <:+: l.text → l.stamp = k

/-! ## The seconds that are visited -/

theorem mem_window {now k : ℤ} {interval : ℕ} :
    k ∈ window now interval ↔ now - interval ≤ k ∧ k < now := by
  unfold window
  constructor
  · intro hk
    obtain ⟨i, hi, rfl⟩ := List.mem_map.mp hk
    have hlt := List.mem_range.mp hi
    omega
  · rintro ⟨hlow, hhigh⟩
    refine List.mem_map.mpr ⟨(k - (now - interval)).toNat, ?_, ?_⟩
    · exact List.mem_range.mpr (by omega)
    · omega

/-- One borrow and one carry are enough for a minute in either direction. -/
theorem normalizeTime_eq {h m s : ℤ} (hh : 0 ≤ h ∧ h ≤ 23) (hm : 0 ≤ m ∧ m ≤ 59)
    (hs : -60 ≤ s ∧ s ≤ 119) :
    normalizeTime ⟨h, m, s⟩ = timeOfDay (3600 * h + 60 * m + s) := by
  unfold normalizeTime timeOfDay
  by_cases hborrow : s < 0
  · have hsmall : ¬s + 60 > 59 := by omega
    by_cases hminute : m - 1 < 0
    · by_cases hhour : h - 1 < 0
      · simp only [hborrow, hminute, hhour, hsmall, if_true, if_false,
          TimeOfDay.mk.injEq]
        omega
      · simp only [hborrow, hminute, hhour, hsmall, if_true, if_false,
          TimeOfDay.mk.injEq]
        omega
    · simp only [hborrow, hminute, hsmall, if_true, if_false, TimeOfDay.mk.injEq]
      omega
  · by_cases hcarry : s > 59
    · by_cases hminute : m + 1 > 59
      · by_cases hhour : h + 1 > 23
        · simp only [hborrow, hminute, hhour, hcarry, if_true, if_false,
            TimeOfDay.mk.injEq]
          omega
        · simp only [hborrow, hminute, hhour, hcarry, if_true, if_false,
            TimeOfDay.mk.injEq]
          omega
      · simp only [hborrow, hminute, hcarry, if_true, if_false, TimeOfDay.mk.injEq]
        omega
    · simp only [hborrow, hcarry, if_false, TimeOfDay.mk.injEq]
      omega

theorem normalizeTime_shift {k d : ℤ} (hlow : -60 ≤ k % 60 + d)
    (hhigh : k % 60 + d ≤ 119) :
    normalizeTime { timeOfDay k with s := (timeOfDay k).s + d } =
      timeOfDay (k + d) := by
  have hproper := timeOfDay_proper k
  have hnormal := @normalizeTime_eq (timeOfDay k).h (timeOfDay k).m
    ((timeOfDay k).s + d) ⟨hproper.1, hproper.2.1⟩
    ⟨hproper.2.2.1, hproper.2.2.2.1⟩ ⟨hlow, hhigh⟩
  refine hnormal.trans ?_
  unfold timeOfDay
  simp only [TimeOfDay.mk.injEq]
  omega

/-- After the first iteration the time is proper, and the next one is a second
later. -/
theorem visited_succ (k : ℤ) (n : ℕ) :
    visited n { timeOfDay k with s := (timeOfDay k).s + 1 } =
      (List.range n).map fun i : ℕ => timeOfDay (k + 1 + i) := by
  induction n generalizing k with
  | zero => rfl
  | succ n ih =>
      have hnormal := @normalizeTime_shift k 1 (by omega) (by omega)
      rw [visited, hnormal, ih, List.range_succ_eq_map, List.map_cons, List.map_map, Nat.cast_zero,
        add_zero]
      congr 1
      refine List.map_congr_left fun i _ => ?_
      simp only [Function.comp_apply, Nat.succ_eq_add_one]
      congr 1
      omega

theorem visited_window {now : ℤ} {interval : ℕ}
    (hshort : (interval : ℤ) ≤ now % 60 + 60) :
    visited interval (firstTime now interval) =
      (window now interval).map timeOfDay := by
  rcases interval with _ | n
  · rfl
  · have hnormal := @normalizeTime_shift now (-(n + 1 : ℕ)) (by omega) (by omega)
    unfold window firstTime
    rw [visited, sub_eq_add_neg, hnormal, visited_succ, List.range_succ_eq_map, List.map_cons,
      List.map_cons, List.map_map, List.map_map, Nat.cast_zero, add_zero, sub_eq_add_neg]
    congr 1
    refine List.map_congr_left fun i _ => ?_
    simp only [Function.comp_apply, Nat.succ_eq_add_one]
    congr 1
    omega

/-- More than a minute is not borrowed. -/
theorem normalizeTime_far {t : TimeOfDay} (hfar : t.s < -60) :
    (normalizeTime t).s = t.s + 60 := by
  have hborrow : t.s < 0 := by omega
  have hcarry : ¬t.s + 60 > 59 := by omega
  unfold normalizeTime
  by_cases hminute : t.m - 1 < 0
  · by_cases hhour : t.h - 1 < 0
    · simp only [hborrow, hminute, hhour, hcarry, if_true, if_false]
    · simp only [hborrow, hminute, hhour, hcarry, if_true, if_false]
  · simp only [hborrow, hminute, hcarry, if_true, if_false]

/-- A longer interval leaves a negative number of seconds. -/
theorem visited_head {now : ℤ} {interval : ℕ}
    (hlong : now % 60 + 60 < (interval : ℤ)) :
    ∃ t ∈ visited interval (firstTime now interval), t.s < 0 := by
  rcases interval with _ | n
  · omega
  · have hfar : (firstTime now (n + 1 : ℕ)).s < -60 := by
      unfold firstTime timeOfDay
      dsimp only
      omega
    refine ⟨_, List.mem_cons_self, ?_⟩
    rw [normalizeTime_far hfar]
    omega

/-! ## The lines that are selected -/

/-- The file at the end of the loop, when there is an iteration. -/
theorem collect_succ (log : List LogLine) (n i : ℕ) (t : TimeOfDay)
    (lines : List LogLine) :
    collect log n (i + 1) t (some lines) =
      some (lines ++ (visited n t).flatMap (grepped log)) := by
  induction n generalizing i t lines with
  | zero => simp [collect, visited]
  | succ n ih =>
      rw [collect, visited, if_neg (Nat.succ_ne_zero i), Option.getD_some, ih,
        List.flatMap_cons, List.append_assoc]

theorem doGetLines_succ (log : List LogLine) (status : Option (List LogLine))
    (now : ℤ) {interval : ℕ} (hpos : interval ≠ 0) :
    doGetLines log status now interval =
      some ((visited interval (firstTime now interval)).flatMap (grepped log)) := by
  obtain ⟨n, rfl⟩ := Nat.exists_eq_succ_of_ne_zero hpos
  unfold doGetLines
  rw [collect, visited, if_pos rfl, collect_succ, List.flatMap_cons]

/-- How often a line is selected: once for every second that it shows. -/
theorem count_grepped (log : List LogLine) (l : LogLine) (ts : List TimeOfDay) :
    (ts.flatMap (grepped log)).count l =
      ts.countP (fun t => l.isState && decide (t.text <:+: l.text)) *
        log.count l := by
  induction ts with
  | nil => simp
  | cons t ts ih =>
      rw [List.flatMap_cons, List.count_append, ih, List.countP_cons, Nat.add_mul,
        Nat.add_comm]
      congr 1
      unfold grepped
      by_cases hshow : (l.isState && decide (t.text <:+: l.text)) = true
      · rw [@List.count_filter _ _ _ _ _ log hshow, if_pos hshow, Nat.one_mul]
      · rw [if_neg hshow, Nat.zero_mul, List.count_eq_zero]
        intro hmem
        exact hshow (List.mem_filter.mp hmem).2

theorem window_increasing (now : ℤ) (interval : ℕ) :
    (window now interval).Pairwise (· < ·) := by
  refine List.pairwise_map.mpr (List.pairwise_lt_range.imp ?_)
  intro i j hij
  omega

theorem window_nodup (now : ℤ) (interval : ℕ) : (window now interval).Nodup :=
  (window_increasing now interval).imp fun hlt => hlt.ne

theorem two_le_countP {α : Type} {p : α → Bool} {l : List α} {a b : α}
    (ha : a ∈ l) (hb : b ∈ l) (hne : a ≠ b) (hpa : p a = true)
    (hpb : p b = true) : 2 ≤ l.countP p := by
  rw [List.countP_eq_length_filter]
  have hsub : [a, b].Subperm (l.filter p) := by
    refine List.subperm_of_subset (by simpa using hne) ?_
    intro c hc
    rcases List.mem_pair.mp hc with rfl | rfl
    · exact List.mem_filter.mpr ⟨ha, hpa⟩
    · exact List.mem_filter.mpr ⟨hb, hpb⟩
  exact hsub.length_le

/-- The selection of an iteration that goes back at most into the minute
before. -/
theorem doGetLines_window {log : List LogLine} {status : Option (List LogLine)}
    {now : ℤ} {interval : ℕ} (hshort : (interval : ℤ) ≤ now % 60 + 60)
    (hpos : interval ≠ 0) :
    doGetLines log status now interval =
      some ((window now interval).flatMap fun k => grepped log (timeOfDay k)) := by
  rw [doGetLines_succ log status now hpos, visited_window hshort,
    List.flatMap_map]

theorem count_window (log : List LogLine) (l : LogLine) (ks : List ℤ) :
    (ks.flatMap fun k => grepped log (timeOfDay k)).count l =
      ks.countP (fun k => l.isState && decide ((timeOfDay k).text <:+: l.text)) *
        log.count l := by
  have hcount := count_grepped log l (ks.map timeOfDay)
  rw [List.flatMap_map, List.countP_map] at hcount
  exact hcount

theorem inWindow_iff {now : ℤ} {interval : ℕ} {l : LogLine} :
    l.InWindow now interval ↔ l.isState = true ∧ l.stamp ∈ window now interval := by
  rw [mem_window]
  exact Iff.rfl

theorem filter_inWindow_zero (log : List LogLine) (now : ℤ) :
    (log.filter fun l => decide (l.InWindow now 0)) = [] := by
  refine List.filter_eq_nil_iff.mpr fun l _ hl => ?_
  obtain ⟨-, hlow, hhigh⟩ := of_decide_eq_true hl
  omega

/-- A line in the window is selected as often as it is listed. -/
theorem count_inWindow {log : List LogLine} {now : ℤ} {interval : ℕ} {l : LogLine}
    (hl : l.InWindow now interval) :
    (log.filter fun l => decide (l.InWindow now interval)).count l =
      log.count l :=
  List.count_filter (p := fun l : LogLine => decide (l.InWindow now interval))
    (decide_eq_true hl)

theorem count_not_inWindow {log : List LogLine} {now : ℤ} {interval : ℕ}
    {l : LogLine} (hl : ¬l.InWindow now interval) :
    (log.filter fun l => decide (l.InWindow now interval)).count l = 0 := by
  refine List.count_eq_zero.mpr fun hmem => hl ?_
  exact of_decide_eq_true (List.mem_filter.mp hmem).2

theorem LogLine.shows_own {l : LogLine} (hstate : l.isState = true) :
    (timeOfDay l.stamp).text <:+: l.text :=
  l.stamped (of_decide_eq_true hstate)

theorem ReturnsWindow.windowOk {log : List LogLine}
    {status : Option (List LogLine)} {now : ℤ} {interval : ℕ}
    (h : ReturnsWindow log status now interval) :
    WindowOk log status now interval := by
  obtain ⟨lines, hlines, hperm, -⟩ := h.selects
  have hshort : (interval : ℤ) ≤ now % 60 + 60 := by
    by_contra hlong
    obtain ⟨t, ht, hneg⟩ := visited_head (not_le.mp hlong)
    have hproper := h.proper t ht
    exact absurd hproper.2.2.2.2.1 (not_le.mpr hneg)
  refine ⟨hshort, ?_, ?_⟩
  · rintro rfl
    have hnil : lines = [] := by
      rw [filter_inWindow_zero] at hperm
      exact hperm.eq_nil
    rw [← hnil]
    exact hlines
  · intro l hl hstate k hk hshow
    have hpos : interval ≠ 0 := by
      rintro rfl
      cases hk
    rw [doGetLines_window hshort hpos] at hlines
    obtain rfl := Option.some.inj hlines
    have hcount := hperm.count_eq l
    rw [count_window] at hcount
    have hmult : 0 < log.count l := List.count_pos_iff.mpr hl
    have htest : (l.isState && decide ((timeOfDay k).text <:+: l.text)) = true :=
      Bool.and_eq_true_iff.mpr ⟨hstate, decide_eq_true hshow⟩
    by_contra hne
    by_cases hin : l.InWindow now interval
    · have hown : (l.isState &&
          decide ((timeOfDay l.stamp).text <:+: l.text)) = true :=
        Bool.and_eq_true_iff.mpr ⟨hstate, decide_eq_true (LogLine.shows_own hstate)⟩
      have htwo := two_le_countP
        (p := fun k => l.isState && decide ((timeOfDay k).text <:+: l.text))
        (inWindow_iff.mp hin).2 hk hne hown htest
      rw [count_inWindow hin] at hcount
      have hle := Nat.mul_le_mul_right (log.count l) htwo
      omega
    · have hone : 0 < (window now interval).countP
          (fun k => l.isState && decide ((timeOfDay k).text <:+: l.text)) :=
        List.countP_pos_iff.mpr ⟨k, hk, htest⟩
      rw [count_not_inWindow hin] at hcount
      exact absurd hcount (Nat.mul_pos hone hmult).ne'

theorem WindowOk.returnsWindow {log : List LogLine}
    {status : Option (List LogLine)} {now : ℤ} {interval : ℕ}
    (h : WindowOk log status now interval) :
    ReturnsWindow log status now interval := by
  have hvisits := visited_window h.short
  refine ⟨hvisits, ?_, ?_⟩
  · rw [hvisits]
    intro t ht
    obtain ⟨k, -, rfl⟩ := List.mem_map.mp ht
    exact timeOfDay_proper k
  · by_cases hzero : interval = 0
    · refine ⟨[], ?_, ?_, List.Pairwise.nil⟩
      · rw [hzero]
        exact h.status_nil hzero
      · rw [hzero, filter_inWindow_zero]
    · have htest : ∀ l ∈ log, ∀ k ∈ window now interval,
          (l.isState && decide ((timeOfDay k).text <:+: l.text)) = true ↔
            l.isState = true ∧ k = l.stamp := by
        intro l hl k hk
        rw [Bool.and_eq_true, decide_eq_true_eq]
        constructor
        · rintro ⟨hstate, hshow⟩
          exact ⟨hstate, (h.shows l hl hstate k hk hshow).symm⟩
        · rintro ⟨hstate, rfl⟩
          exact ⟨hstate, LogLine.shows_own hstate⟩
      refine ⟨_, doGetLines_window h.short hzero, ?_, ?_⟩
      · refine List.perm_iff_count.mpr fun l => ?_
        rw [count_window]
        by_cases hl : l ∈ log
        · by_cases hin : l.InWindow now interval
          · obtain ⟨hstate, hmem⟩ := inWindow_iff.mp hin
            have hone : (window now interval).countP (fun k => l.isState &&
                decide ((timeOfDay k).text <:+: l.text)) = 1 := by
              have hcount := List.Nodup.count (a := l.stamp)
                (window_nodup now interval)
              rw [if_pos hmem] at hcount
              rw [← hcount]
              refine List.countP_congr fun k hk => ?_
              rw [htest l hl k hk, beq_iff_eq, and_iff_right hstate]
            rw [hone, Nat.one_mul, count_inWindow hin]
          · have hnone : (window now interval).countP (fun k => l.isState &&
                decide ((timeOfDay k).text <:+: l.text)) = 0 := by
              refine List.countP_eq_zero.mpr fun k hk hshow => hin ?_
              obtain ⟨hstate, rfl⟩ := (htest l hl k hk).mp hshow
              exact inWindow_iff.mpr ⟨hstate, hk⟩
            rw [hnone, Nat.zero_mul, count_not_inWindow hin]
        · rw [List.count_eq_zero.mpr hl, Nat.mul_zero, eq_comm, List.count_eq_zero]
          exact fun hmem => hl (List.mem_filter.mp hmem).1
      · have hstamp : ∀ k ∈ window now interval, ∀ l ∈ grepped log (timeOfDay k),
            l.stamp = k := by
          intro k hk l hl
          obtain ⟨hmem, hshow⟩ := List.mem_filter.mp hl
          exact ((htest l hmem k hk).mp hshow).2.symm
        refine List.pairwise_flatMap.mpr ⟨?_, ?_⟩
        · intro k hk
          refine List.pairwise_of_forall_mem_list fun a ha b hb => ?_
          rw [hstamp k hk a ha, hstamp k hk b hb]
        · refine (window_increasing now interval).imp_of_mem ?_
          intro j k hj hk hlt a ha b hb
          rw [hstamp j hj a ha, hstamp k hk b hb]
          exact hlt.le

/-- For every log and every time the endpoint returns the requested window
exactly if the interval is short, nothing is left over, and no line shows a
time of day of the window that is not that of its stamp.  Both times are of a
local clock that is not set back. -/
theorem monitor_window_iff (log : List LogLine) (status : Option (List LogLine))
    (now : ℤ) (interval : ℕ) :
    ReturnsWindow log status now interval ↔ WindowOk log status now interval :=
  ⟨ReturnsWindow.windowOk, WindowOk.returnsWindow⟩

/-- A report of noon, on the first day. -/
def noonLine : LogLine where
  text := "[01/Jan/1970:12:00:00 +0000] System State:total:0.00".toList
  stamp := 43200
  stamped := fun _ => by decide +kernel

/-- A request at five seconds past noon on the second day, for the last fifteen
seconds: the report of the day before is read back. -/
theorem monitor_window_day_before :
    doGetLines [noonLine] none 129605 15 = some [noonLine] ∧
      ¬noonLine.InWindow 129605 15 ∧
      ¬ReturnsWindow [noonLine] none 129605 15 := by
  have hlines : doGetLines [noonLine] none 129605 15 = some [noonLine] := by
    decide +kernel
  have hout : ¬noonLine.InWindow 129605 15 := by
    decide +kernel
  refine ⟨hlines, hout, fun h => ?_⟩
  obtain ⟨lines, hsome, hperm, -⟩ := h.selects
  obtain rfl := Option.some.inj (hlines.symm.trans hsome)
  have hmem := hperm.mem_iff.mp (List.mem_singleton_self noonLine)
  exact hout (of_decide_eq_true (List.mem_filter.mp hmem).2)

end MultiversionBalancer.Monitor

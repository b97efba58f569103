import DepTaint.CacheRemoval
import DepTaint.CallDependence

/-!
# ScanAgreement

When a cached dependence is what a scan of the whole block finds.

A `Scanner` is one of the two questions a scan asks of each instruction. `Scanner.full` is its answer
without `BlockScanLimit`; a scan with the limit returns the same or `Unknown` (`Agrees`). A dirty
result says where the scan starts again: `Resumes` says that a scan from there misses nothing.

* `Faithful.rescan`: a scan from the position of a dirty result agrees with the full scan.
* `Faithful.removes`: the result that replaces one which names a removed instruction is faithful to
  the function without that instruction.
-/

namespace DepTaint
namespace FlowDep

/-! ## Scanners -/

/-- What a scan asks of an instruction: whether it is looked at, and what it is for the query. -/
structure Scanner where
  skip : InstId → Bool
  verdict : InstId → Verdict

namespace Scanner

/-- The scan ends at `i`, if it comes to it before its limit. -/
def stops (k : Scanner) (i : InstId) : Bool := !k.skip i && k.verdict i ≠ .pass

/-- What a scan that ends at `i` returns. -/
def result (k : Scanner) (i : InstId) : FlowDepResult :=
  if k.verdict i = .defn then .defn i else .clobber i

/-- What a scan finds, without a limit. -/
def find (k : Scanner) (atBegin : FlowDepResult) (above : List InstId) : FlowDepResult :=
  ((above.find? k.stops).map k.result).getD atBegin

variable {AA : AliasAnalysis} (k : Scanner) (F : Function AA)

/-- The scan of `BB` from `scanIt` up, or from the end. -/
def scanBlock (BB : BlockId) (scanIt : Option InstId) : FlowDepResult :=
  scan k.skip k.verdict (F.atBegin BB) blockScanLimit (F.above BB scanIt)

def full (BB : BlockId) (scanIt : Option InstId) : FlowDepResult :=
  k.find (F.atBegin BB) (F.above BB scanIt)

theorem result_names {k : Scanner} {i : InstId} : (k.result i).Names i := by
  unfold result FlowDepResult.Names
  split
  · exact .inr (.inr rfl)
  · exact .inr (.inl rfl)

end Scanner

/-- The result is what `full` is, or `Unknown`, and then not `exact`. -/
def Agrees (exact : Prop) (r full : FlowDepResult) : Prop :=
  r = full ∨ (r = .other .unknown ∧ ¬ exact)

/-- The block is so short that no scan of it comes to the limit. -/
def Short {AA : AliasAnalysis} (F : Function AA) (BB : BlockId) : Prop :=
  (F.insts BB).length < blockScanLimit

section Scans

variable {k : Scanner} {atBegin : FlowDepResult} {limit : Nat} {above : List InstId} {i : InstId}

theorem find_nil : k.find atBegin [] = atBegin := rfl

theorem find_cons_of_stops (h : k.stops i = true) : k.find atBegin (i :: above) = k.result i := by
  simp [Scanner.find, h]

theorem find_cons_of_not_stops (h : k.stops i = false) :
    k.find atBegin (i :: above) = k.find atBegin above := by
  simp [Scanner.find, h]

/-- A scan finds what there is to find, or is cut off. -/
theorem scan_eq_or (limit : Nat) (above : List InstId) :
    scan k.skip k.verdict atBegin limit above = k.find atBegin above ∨
      (scan k.skip k.verdict atBegin limit above = .other .unknown ∧ limit ≤ above.length) := by
  induction above generalizing limit with
  | nil => exact .inl (by simp [scan, find_nil])
  | cons i above ih =>
    rw [List.length_cons]
    unfold scan
    by_cases hskip : k.skip i = true
    · rw [if_pos hskip, find_cons_of_not_stops (by simp [Scanner.stops, hskip])]
      exact (ih limit).imp_right fun h => ⟨h.1, by omega⟩
    · rw [if_neg hskip]
      by_cases hlimit : limit - 1 = 0
      · exact .inr ⟨by rw [if_pos hlimit], by omega⟩
      · rw [if_neg hlimit]
        cases hv : k.verdict i with
        | pass =>
          rw [find_cons_of_not_stops (by simp [Scanner.stops, hv])]
          exact (ih (limit - 1)).imp_right fun h => ⟨h.1, by omega⟩
        | defn =>
          refine .inl ?_
          rw [find_cons_of_stops (by simp [Scanner.stops, hv, hskip])]
          simp [Scanner.result, hv]
        | clobber =>
          refine .inl ?_
          rw [find_cons_of_stops (by simp [Scanner.stops, hv, hskip])]
          simp [Scanner.result, hv]

theorem scan_agrees {exact : Prop} (h : exact → above.length < limit) :
    Agrees exact (scan k.skip k.verdict atBegin limit above) (k.find atBegin above) := by
  refine (scan_eq_or limit above).imp_right fun hcut => ⟨hcut.1, fun hx => ?_⟩
  have := h hx
  omega

/-- A find ends at the beginning of the block, or at the first instruction that stops it. -/
theorem find_cases (k : Scanner) (atBegin : FlowDepResult) (above : List InstId) :
    k.find atBegin above = atBegin ∨ ∃ T i A, above = T ++ i :: A ∧
      (∀ j ∈ T, k.stops j = false) ∧ k.find atBegin above = k.result i := by
  cases hfind : above.find? k.stops with
  | none => exact .inl (by simp [Scanner.find, hfind])
  | some i =>
    obtain ⟨_, T, A, habove, hT⟩ := List.find?_eq_some_iff_append.mp hfind
    exact .inr ⟨T, i, A, habove, fun j hj => by simpa using hT j hj, by
      simp [Scanner.find, hfind]⟩

/-- Instructions that do not stop the scan may be left out. -/
theorem find_append_of_not_stops {T : List InstId} (h : ∀ j ∈ T, k.stops j = false) :
    k.find atBegin (T ++ above) = k.find atBegin above := by
  induction T with
  | nil => rfl
  | cons j T ih =>
    rw [List.cons_append, find_cons_of_not_stops (h j (List.mem_cons_self ..)),
      ih fun x hx => h x (List.mem_cons_of_mem _ hx)]

/-- A find does not depend on an instruction it does not name. -/
theorem find_filter {R : InstId} (h : ¬ (k.find atBegin above).Names R) :
    k.find atBegin (above.filter (· ≠ R)) = k.find atBegin above := by
  induction above with
  | nil => rfl
  | cons i above ih =>
    by_cases hstop : k.stops i = true
    · rw [find_cons_of_stops hstop] at h ⊢
      have hne : i ≠ R := by
        rintro rfl
        exact h Scanner.result_names
      rw [List.filter_cons_of_pos (by simpa using hne), find_cons_of_stops hstop]
    · rw [Bool.not_eq_true] at hstop
      rw [find_cons_of_not_stops hstop] at h ⊢
      by_cases hR : i = R
      · rw [List.filter_cons_of_neg (by simpa using hR), ih h]
      · rw [List.filter_cons_of_pos (by simpa using hR), find_cons_of_not_stops hstop, ih h]

end Scans

/-! ## Positions in a block -/

section Positions

variable {AA : AliasAnalysis} {F : Function AA} {BB : BlockId} {start : Option InstId}
  {T A : List InstId} {i Q : InstId}

/-- An instruction that a scan looks at parts the block. -/
theorem insts_of_above (h : F.above BB start = T ++ i :: A) :
    ∃ post, F.insts BB = A.reverse ++ i :: (T.reverse ++ post) ∧ (start = none → post = []) ∧
      ∀ Q, start = some Q → Q ∈ F.insts BB → post.head? = some Q := by
  cases start with
  | none =>
    refine ⟨[], ?_, fun _ => rfl, fun Q hQ => by cases hQ⟩
    have hrev := congrArg List.reverse h
    simpa [Function.above] using hrev
  | some Q =>
    have hrev := congrArg List.reverse h
    have hsplit : (F.insts BB).takeWhile (· ≠ Q) ++ (F.insts BB).dropWhile (· ≠ Q) = F.insts BB :=
      List.takeWhile_append_dropWhile
    have htake : (F.insts BB).takeWhile (· ≠ Q) = A.reverse ++ i :: T.reverse := by
      simpa [Function.above] using hrev
    refine ⟨(F.insts BB).dropWhile (· ≠ Q), ?_, ?_, ?_⟩
    · rw [htake, List.append_assoc] at hsplit
      exact hsplit.symm
    · intro hx
      cases hx
    · intro Q' hQ' hmem
      cases hQ'
      have hdrop : Q ∈ (F.insts BB).dropWhile (· ≠ Q) := by
        rw [← hsplit] at hmem
        rcases List.mem_append.mp hmem with hm | hm
        · simpa using List.mem_takeWhile_imp hm
        · exact hm
      have hhead := List.head?_dropWhile_not (fun x => decide (x ≠ Q)) (F.insts BB)
      cases hd : (F.insts BB).dropWhile (· ≠ Q) with
      | nil =>
        rw [hd] at hdrop
        cases hdrop
      | cons x rest =>
        rw [hd] at hhead
        simpa using hhead

/-- What stands above an instruction that a scan looks at. -/
theorem above_of_above (h : F.above BB start = T ++ i :: A) : F.above BB (some i) = A := by
  obtain ⟨post, hinsts, _, _⟩ := insts_of_above h
  have hnd := F.nodup BB
  rw [hinsts, List.nodup_middle, List.nodup_cons] at hnd
  have hA : ∀ x ∈ A.reverse, decide (x ≠ i) = true := by
    intro x hx
    have : x ≠ i := by
      rintro rfl
      exact hnd.1 (List.mem_append_left _ hx)
    simpa using this
  rw [Function.above, hinsts, List.takeWhile_append_of_pos hA, List.takeWhile_cons_of_neg (by simp),
    List.append_nil, List.reverse_reverse]

theorem mem_insts_of_above (h : i ∈ F.above BB start) : i ∈ F.insts BB := by
  obtain ⟨T, A, habove⟩ := List.append_of_mem h
  obtain ⟨post, hinsts, _, _⟩ := insts_of_above habove
  simp [hinsts]

/-- At the instruction that replaces `i` in a dirty result, a scan comes to `i` first. -/
theorem newDirtyVal_above (h : F.above BB start = T ++ i :: A)
    (hstart : ∀ Q, start = some Q → Q ∈ F.insts BB) :
    ∃ pos, newDirtyVal F i = .dirty pos ∧ F.above BB pos = i :: A ∧ pos ≠ some i ∧
      (pos = start ∨ ∃ j T', pos = some j ∧ T = T' ++ [j]) := by
  obtain ⟨post, hinsts, hnone, hsome⟩ := insts_of_above h
  have hterm := F.terminated BB _ i _ hinsts
  have hnext := next_eq hinsts
  have hnd := F.nodup BB
  rw [hinsts, List.nodup_middle, List.nodup_cons] at hnd
  cases hT : T.reverse with
  | nil =>
    obtain rfl : T = [] := by simpa using hT
    rw [List.reverse_nil, List.nil_append] at hterm hnext
    cases start with
    | none =>
      obtain rfl := hnone rfl
      refine ⟨none, by simp [newDirtyVal, hterm.mpr rfl], h, by simp, .inl rfl⟩
    | some Q =>
      have hhead := hsome Q rfl (hstart Q rfl)
      have hpost : post ≠ [] := by
        rintro rfl
        cases hhead
      have hnterm : (AA.inst i).isTerminator = false := by
        rw [Bool.eq_false_iff]
        exact fun hx => hpost (hterm.mp hx)
      have hQ : Q ∈ post := List.mem_of_head? hhead
      refine ⟨some Q, by simp [newDirtyVal, hnterm, hnext, hhead], h, ?_, .inl rfl⟩
      intro hx
      cases hx
      exact hnd.1 (by simp [hQ])
  | cons j T' =>
    have hTj : T = T'.reverse ++ [j] := by
      have := congrArg List.reverse hT
      simpa using this
    have hnterm : (AA.inst i).isTerminator = false := by
      rw [Bool.eq_false_iff]
      intro hx
      have := hterm.mp hx
      simp [hT] at this
    rw [hT, List.cons_append, List.head?_cons] at hnext
    rw [hTj, List.append_assoc] at h
    refine ⟨some j, by simp [newDirtyVal, hnterm, hnext], above_of_above h, ?_,
      .inr ⟨j, T'.reverse, rfl, hTj⟩⟩
    intro hx
    cases hx
    exact hnd.1 (by simp [hTj])

end Positions

/-! ## The removal of an instruction -/

section Removes

variable {AA : AliasAnalysis} {F F' : Function AA} {R : InstId}

theorem Function.Removes.keeps (h : F.Removes F' R) : F.Keeps F' R := fun b => by rw [h.insts b]

theorem Function.Removes.atBegin (h : F.Removes F' R) (BB : BlockId) :
    F'.atBegin BB = F.atBegin BB := by
  simp only [Function.atBegin, h.entryBlock]

theorem Function.Removes.mem_insts (h : F.Removes F' R) {BB : BlockId} {i : InstId} :
    i ∈ F'.insts BB ↔ i ∈ F.insts BB ∧ i ≠ R := by
  simp [h.insts]

theorem Function.Removes.short (h : F.Removes F' R) {BB : BlockId} (hs : Short F BB) :
    Short F' BB := by
  refine Nat.lt_of_le_of_lt ?_ hs
  rw [h.insts]
  exact List.length_filter_le ..

theorem takeWhile_filter_ne {Q : InstId} (hQ : Q ≠ R) (l : List InstId) :
    (l.filter (· ≠ R)).takeWhile (· ≠ Q) = (l.takeWhile (· ≠ Q)).filter (· ≠ R) := by
  induction l with
  | nil => rfl
  | cons x l ih =>
    by_cases hxR : x = R
    · have hxQ : x ≠ Q := by
        rintro rfl
        exact hQ hxR
      rw [List.filter_cons_of_neg (by simpa using hxR), List.takeWhile_cons_of_pos (by simpa using hxQ),
        List.filter_cons_of_neg (by simpa using hxR), ih]
    · rw [List.filter_cons_of_pos (by simpa using hxR)]
      by_cases hxQ : x = Q
      · rw [List.takeWhile_cons_of_neg (by simpa using hxQ),
          List.takeWhile_cons_of_neg (by simpa using hxQ)]
        rfl
      · rw [List.takeWhile_cons_of_pos (by simpa using hxQ),
          List.takeWhile_cons_of_pos (by simpa using hxQ),
          List.filter_cons_of_pos (by simpa using hxR), ih]

theorem Function.Removes.above (h : F.Removes F' R) {BB : BlockId} {start : Option InstId}
    (hstart : start ≠ some R) : F'.above BB start = (F.above BB start).filter (· ≠ R) := by
  cases start with
  | none => rw [Function.above, h.insts, Function.above, List.filter_reverse]
  | some Q =>
    have hQ : Q ≠ R := fun hx => hstart (by rw [hx])
    rw [Function.above, h.insts, Function.above, takeWhile_filter_ne hQ, List.filter_reverse]

end Removes

/-! ## Faithful results -/

section Faithful

variable {AA : AliasAnalysis} (k : Scanner) (F : Function AA) (BB : BlockId)
  (start : Option InstId)

/-- A scan from `pos` misses nothing that a scan from `start` would come to. -/
def Resumes (pos : Option InstId) : Prop :=
  pos = start ∨ ∃ p T A, pos = some p ∧ F.above BB start = T ++ p :: A ∧
    k.stops p = false ∧ ∀ j ∈ T, k.stops j = false

/-- The result is what the full scan finds, or a scan from its position would find that. -/
def Faithful (exact : Prop) : FlowDepResult → Prop
  | .dirty pos => Resumes k F BB start pos
  | r => Agrees exact r (k.full F BB start)

variable {k F BB start} {exact : Prop}

theorem faithful_of_agrees {r : FlowDepResult} (hr : r.isDirty = false)
    (h : Agrees exact r (k.full F BB start)) : Faithful k F BB start exact r := by
  cases r with
  | dirty pos => cases hr
  | clobber i => exact h
  | defn i => exact h
  | other o => exact h

theorem Faithful.agrees {r : FlowDepResult} (h : Faithful k F BB start exact r)
    (hr : r.isDirty = false) : Agrees exact r (k.full F BB start) := by
  cases r with
  | dirty pos => cases hr
  | clobber i => exact h
  | defn i => exact h
  | other o => exact h

theorem Resumes.full_eq {pos : Option InstId} (h : Resumes k F BB start pos) :
    k.full F BB pos = k.full F BB start := by
  rcases h with rfl | ⟨p, T, A, rfl, habove, hp, hT⟩
  · rfl
  · rw [Scanner.full, above_of_above habove, Scanner.full, habove, find_append_of_not_stops hT,
      find_cons_of_not_stops hp]

theorem above_length_le (BB : BlockId) (start : Option InstId) :
    (F.above BB start).length ≤ (F.insts BB).length := by
  cases start with
  | none => simp [Function.above]
  | some Q =>
    rw [Function.above, List.length_reverse]
    exact (List.takeWhile_prefix _).length_le

/-- A scan from the position of a dirty result agrees with the full scan. -/
theorem Resumes.rescan {pos : Option InstId} (h : Resumes k F BB start pos)
    (hshort : exact → Short F BB) :
    Agrees exact (k.scanBlock F BB pos) (k.full F BB start) := by
  rw [← h.full_eq]
  exact scan_agrees fun hx => Nat.lt_of_le_of_lt (above_length_le BB pos) (hshort hx)

theorem scan_ne_dirty {skip : InstId → Bool} {verdict : InstId → Verdict}
    {atBegin : FlowDepResult} (hbegin : atBegin.isMarker = true) (limit : Nat)
    (above : List InstId) : (scan skip verdict atBegin limit above).isDirty = false := by
  have hdep : DependsIn above (scan skip verdict atBegin limit above) :=
    scan_dependsIn hbegin limit above
  rcases hdep with ⟨i, _, h | h⟩ | h
  · rw [h]
    rfl
  · rw [h]
    rfl
  · obtain ⟨o, ho⟩ := FlowDepResult.isMarker_iff.mp h
    rw [ho]
    rfl

/-- The instruction that a full scan names stands where the scan ends. -/
theorem full_names {i : InstId} (h : (k.full F BB start).Names i) :
    ∃ T A, F.above BB start = T ++ i :: A ∧ (∀ j ∈ T, k.stops j = false) := by
  obtain ⟨o, ho⟩ := FlowDepResult.isMarker_iff.mp (F.atBegin_isMarker BB)
  rcases find_cases k (F.atBegin BB) (F.above BB start) with hb | ⟨T, j, A, habove, hT, hj⟩
  · rw [Scanner.full, hb, ho] at h
    simp [FlowDepResult.Names] at h
  · rw [Scanner.full, hj] at h
    obtain rfl := h.unique Scanner.result_names
    exact ⟨T, A, habove, hT⟩

/-- A faithful result names an instruction of the block: the start, or one before it. -/
theorem Faithful.names {r : FlowDepResult} (h : Faithful k F BB start exact r) {i : InstId}
    (hi : r.Names i) : some i = start ∨ ∃ T A, F.above BB start = T ++ i :: A ∧
      ∀ j ∈ T, k.stops j = false := by
  have hagrees : Agrees exact r (k.full F BB start) → ∃ T A, F.above BB start = T ++ i :: A ∧
      ∀ j ∈ T, k.stops j = false := by
    intro ha
    rcases ha with rfl | ⟨rfl, _⟩
    · exact full_names hi
    · simp [FlowDepResult.Names] at hi
  rcases hi with rfl | rfl | rfl
  · rcases h with rfl | ⟨p, T, A, hp, habove, _, hT⟩
    · exact .inl rfl
    · cases hp
      exact .inr ⟨T, A, habove, hT⟩
  · exact .inr (hagrees h)
  · exact .inr (hagrees h)

/-- After the removal of `R`, the result, or the dirty one that replaces it, is faithful to the
function without `R`. -/
theorem Faithful.removes {F' : Function AA} {R : InstId} {r : FlowDepResult}
    (h : Faithful k F BB start exact r) (hF : F.Removes F' R) (hR : start ≠ some R)
    (hstart : ∀ Q, start = some Q → Q ∈ F.insts BB) :
    Faithful k F' BB start exact (if r.Names R then newDirtyVal F R else r) := by
  by_cases hnames : r.Names R
  · rw [if_pos hnames]
    rcases h.names hnames with heq | ⟨T, A, habove, hT⟩
    · exact absurd heq.symm hR
    · obtain ⟨pos, hdirty, _, hpos, hcase⟩ := newDirtyVal_above habove hstart
      rw [hdirty]
      rcases hcase with rfl | ⟨j, T', rfl, rfl⟩
      · exact .inl rfl
      · -- what the scan has passed over, without `R`
        have hjR : j ≠ R := fun hx => hpos (by rw [hx])
        refine .inr ⟨j, T'.filter (· ≠ R), A.filter (· ≠ R), rfl, ?_, hT j (by simp), fun x hx => ?_⟩
        · rw [hF.above hR, habove]
          simp [hjR]
        · exact hT x (List.mem_append_left _ (List.mem_filter.mp hx).1)
  · rw [if_neg hnames]
    cases hr : r.isDirty with
    | true =>
      obtain ⟨pos, rfl⟩ : ∃ pos, r = .dirty pos := by
        cases r with
        | dirty pos => exact ⟨pos, rfl⟩
        | clobber i => cases hr
        | defn i => cases hr
        | other o => cases hr
      rcases h with rfl | ⟨p, T, A, rfl, habove, hp, hT⟩
      · exact .inl rfl
      · have hpR : p ≠ R := by
          rintro rfl
          exact hnames (.inl rfl)
        refine .inr ⟨p, T.filter (· ≠ R), A.filter (· ≠ R), rfl, ?_, hp, fun x hx => ?_⟩
        · rw [hF.above hR, habove]
          simp [hpR]
        · exact hT x (List.mem_filter.mp hx).1
    | false =>
      refine faithful_of_agrees hr ?_
      have hagrees := h.agrees hr
      rcases hagrees with hfull | hunknown
      · refine .inl ?_
        rw [Scanner.full, hF.above hR, hF.atBegin, find_filter]
        · exact hfull
        · rw [← Scanner.full, ← hfull]
          exact hnames
      · exact .inr hunknown

end Faithful

end FlowDep
end DepTaint

import TurboCopy.Copier.Replay
import TurboCopy.Copier.Solo

/-!
# Page ranges of a listing

A listing is a sequence of pages, each but the last with the token of the next. A call of
`_list_children` keeps the pages of its range and fetches none after it, and the calls for
consecutive ranges return the whole listing.
-/

namespace TurboCopy

open Threads CopierM Copier

/-- The pages of a folder, the tokens they are asked for with, and the errors of those that
cannot be fetched. Pages are counted from zero here. -/
structure Listing where
  pages : List (List ApiFile)
  nonempty : pages ≠ []
  token : ℕ → PageToken
  distinct : Function.Injective token
  fails : ℕ → Option ApiError

namespace Listing

variable (L : Listing)

/-- The token asks for the page. -/
def Asks : Option PageToken → ℕ → Prop
  | none, i => i = 0
  | some t, i => 0 < i ∧ t = L.token i

def answer (i : ℕ) : Except ApiError Page :=
  match L.fails i with
  | some e => .error e
  | none =>
    .ok (L.pages.getD i [], if i + 1 < L.pages.length then some (L.token (i + 1)) else none)

/-- The state of the service is the list of the pages that were fetched. -/
inductive Serves : (q : Request) → List ℕ → q.Ret → List ℕ → Prop
  | nowIso (fetched : List ℕ) (t : String) : Serves .nowIso fetched t fetched
  | page (folder : String) (ex : Option (List String)) (fetched : List ℕ)
      {tok : Option PageToken} {i : ℕ} (hi : i < L.pages.length) (h : L.Asks tok i) :
    Serves (.listChildren folder ex tok) fetched (L.answer i) (fetched ++ [i])

abbrev service : Service where
  State := List ℕ
  serves := L.Serves

variable {L} {cp : Copier} {α : Type} {w : Scene cp L.service} {fromPage toPage : ℤ} {i p : ℕ}

theorem asks_unique {tok : Option PageToken} {i j : ℕ} (h : L.Asks tok i) (h' : L.Asks tok j) :
    i = j := by
  cases tok with
  | none => exact h.trans h'.symm
  | some t => exact L.distinct (h.2.symm.trans h'.2)

theorem ask_page {folder : String} {ex : Option (List String)} {tok : Option PageToken}
    (hi : i < L.pages.length) (h : L.Asks tok i)
    {Q : Except ApiError Page → Scene cp L.service → Prop} {E : Exc → Scene cp L.service → Prop}
    (hQ : ∀ past, Q (L.answer i) ⟨⟨w.state.mem, w.state.drive ++ [i]⟩, past⟩) :
    Completes w (ask (.listChildren folder ex tok)) Q E := by
  apply Completes.ask ⟨_, _, Serves.page folder ex w.state.drive hi h⟩
  intro x d hserves
  cases hserves with
  | page _ _ _ _ h' =>
    obtain rfl := asks_unique h h'
    exact hQ _

theorem ask_nowIso {Q : String → Scene cp L.service → Prop} {E : Exc → Scene cp L.service → Prop}
    (hQ : ∀ t past, Q t ⟨w.state, past⟩) : Completes w (ask .nowIso) Q E := by
  apply Completes.ask ⟨"", _, Serves.nowIso w.state.drive ""⟩
  intro x d hserves
  cases hserves with
  | nowIso => exact hQ x _

/-! ## One call -/

/-- The number of pages up to the end of a range. -/
def stop (L : Listing) (toPage : ℤ) : ℕ :=
  if toPage = 0 then L.pages.length else min L.pages.length toPage.toNat

/-- The files of the pages before `p` that are in a range, from page `i` on. -/
def kept (L : Listing) (fromPage : ℤ) (i p : ℕ) : List DriveFile :=
  ((L.pages.take p).drop (max i (fromPage.toNat - 1))).flatten.map DriveFile.fromApi

/-- The first page that cannot be fetched, or the end of the range. -/
structure StopsAt (L : Listing) (toPage : ℤ) (p : ℕ) : Prop where
  le : p ≤ L.stop toPage
  clean : ∀ i < p, L.fails i = none
  fails : p < L.stop toPage → (L.fails p).isSome = true

theorem exists_stopsAt (L : Listing) (toPage : ℤ) : ∃ p, L.StopsAt toPage p := by
  classical
  have hsome : ∃ p, p = L.stop toPage ∨ (L.fails p).isSome = true := ⟨L.stop toPage, .inl rfl⟩
  refine ⟨Nat.find hsome, Nat.find_le (.inl rfl), ?_, ?_⟩
  · intro i hi
    have hnot := Nat.find_min hsome hi
    push Not at hnot
    simpa using hnot.2
  · intro hlt
    exact (Nat.find_spec hsome).resolve_left (by omega)

/-- One failure is recorded for the folder, and nothing else changes. -/
structure Reports (folder parent : String) (m m' : Mem) : Prop where
  recorded : ∃ item : FailedItem, item.sourceId = folder ∧ item.parentSourceId = some parent ∧
    m' = { m with
      state := { m.state with failedItems := m.state.failedItems ++ [item] }
      result := { m.result with
        failedItems := m.result.failedItems ++ [item]
        hadListingErrors := true }
      listingErrorFolders := insert folder m.listingErrorFolders }

/-- How a call ends that has all pages before `p`. -/
def Ends (L : Listing) (folder parent : String) (toPage : ℤ) (p : ℕ) (files : List DriveFile)
    (m : Mem) (r : Except Exc (List DriveFile)) (m' : Mem) : Prop :=
  if p = L.stop toPage then r = .ok files ∧ m' = m
  else ∃ e, L.fails p = some e ∧
    (e.isFatalQuota = false → r = .ok files ∧ Reports folder parent m m') ∧
    (e.isFatalQuota = true → ∃ reason, r = .error (.quotaStopped reason))

theorem kept_eq (L : Listing) (fromPage : ℤ) (hi : i < p) (hp : p ≤ L.pages.length) :
    L.kept fromPage i p =
      (if fromPage.toNat - 1 ≤ i then (L.pages.getD i []).map DriveFile.fromApi else []) ++
        L.kept fromPage (i + 1) p := by
  unfold kept
  split_ifs with hfirst
  · have hlt : i < (L.pages.take p).length := by
      rw [List.length_take]
      omega
    rw [max_eq_left hfirst, max_eq_left (by omega), List.drop_eq_getElem_cons hlt]
    simp [List.getD_eq_getElem?_getD, List.getElem?_eq_getElem (show i < L.pages.length by omega)]
  · rw [max_eq_right (by omega), max_eq_right (by omega), List.nil_append]

theorem keepPage_eq {out : List DriveFile} {files : List ApiFile} (hto : 0 ≤ toPage)
    (hi : i < L.stop toPage) : keepPage fromPage toPage out files (i + 1) =
      out ++ if fromPage.toNat - 1 ≤ i then files.map DriveFile.fromApi else [] := by
  have hlast : toPage = 0 ∨ ((i + 1 : ℕ) : ℤ) ≤ toPage := by
    unfold stop at hi
    split_ifs at hi
    · exact .inl ‹_›
    · right
      omega
  have hrange : inPageRange fromPage toPage (i + 1) = decide (fromPage.toNat - 1 ≤ i) := by
    unfold inPageRange
    have hupper : (decide (toPage = 0) || decide (((i + 1 : ℕ) : ℤ) ≤ toPage)) = true := by
      simpa using hlast
    rw [hupper, Bool.and_true]
    apply decide_eq_decide.mpr
    split_ifs <;> omega
  unfold keepPage
  rw [hrange]
  split_ifs with hin hin' hin'
  · rfl
  · exact absurd (of_decide_eq_true hin) hin'
  · exact absurd (decide_eq_true hin') hin
  · rw [List.append_nil]

theorem kept_self (L : Listing) (fromPage : ℤ) (p : ℕ) : L.kept fromPage p p = [] := by
  unfold kept
  rw [List.drop_eq_nil_of_le]
  · rfl
  · rw [List.length_take]
    omega

theorem stop_le (L : Listing) (toPage : ℤ) : L.stop toPage ≤ L.pages.length := by
  unfold stop
  split_ifs
  · exact le_rfl
  · exact min_le_left _ _

/-- The pages a call fetches from page `i` on. -/
def fetches (L : Listing) (toPage : ℤ) (i p : ℕ) : List ℕ :=
  List.range' i (min (p + 1) (L.stop toPage) - i)

theorem fetches_eq (hp : i ≤ p) (hi : i < L.stop toPage) :
    L.fetches toPage i p = i :: L.fetches toPage (i + 1) p := by
  unfold fetches
  rw [← Nat.sub_add_cancel (show 1 ≤ min (p + 1) (L.stop toPage) - i by omega),
    List.range'_succ, Nat.sub_sub]

/-- The failure of a page is recorded, or stops the run when it is one of the quota. -/
theorem completes_listingFailed {e : ApiError} {folder parent : String} {page : ℕ}
    {files : List DriveFile} {Q : (List DriveFile × Option PageToken × ℕ) ⊕ List DriveFile →
      Scene cp L.service → Prop} {E : Exc → Scene cp L.service → Prop}
    (hQ : e.isFatalQuota = false → ∀ w' : Scene cp L.service, w'.state.drive = w.state.drive →
      Reports folder parent w.state.mem w'.state.mem → Q (.inr files) w')
    (hE : e.isFatalQuota = true → ∀ (w' : Scene cp L.service) reason,
      w'.state.drive = w.state.drive → E (.quotaStopped reason) w') :
    Completes w (listingFailed e folder page parent >>= fun _ => pure (.inr files)) Q E := by
  unfold listingFailed
  cases hquota : e.isFatalQuota with
  | true =>
    simp only [if_true]
    apply Completes.bind (R := fun _ _ => False)
    · unfold stopOnQuota
      apply Completes.bind (R := fun _ w' => w'.state.drive = w.state.drive) (Completes.mem rfl)
      intro _ w₁ h₁
      apply Completes.bind (R := fun _ w' => w'.state.drive = w.state.drive) (Completes.mem h₁)
      intro _ w₂ h₂
      exact Completes.throw (hE hquota w₂ _ h₂)
    · exact fun _ _ h => h.elim
  | false =>
    simp only [Bool.false_eq_true, if_false]
    apply Completes.bind (R := fun _ w' => w'.state.drive = w.state.drive ∧
      Reports folder parent w.state.mem w'.state.mem)
    · apply Completes.bind (R := fun _ w' => w'.state.drive = w.state.drive ∧
        ∃ item : FailedItem, item.sourceId = folder ∧ item.parentSourceId = some parent ∧
          w'.state.mem = (w.state.mem.exec (.recordFailed item)).2)
      · unfold recordFailed
        apply Completes.bind (R := fun _ w' => w'.state = w.state) (ask_nowIso fun _ _ => rfl)
        rintro t ⟨_, past⟩ rfl
        exact Completes.mem ⟨rfl, _, rfl, rfl, rfl⟩
      · rintro _ ⟨⟨m, d⟩, past⟩ ⟨hdrive, item, hsource, hparent, rfl⟩
        exact Completes.mem ⟨hdrive, ⟨item, hsource, hparent, rfl⟩⟩
    · rintro _ w' ⟨hdrive, hreports⟩
      exact Completes.pure (hQ hquota w' hdrive hreports)

theorem keepPage_append {out : List DriveFile} (hto : 0 ≤ toPage) (hp : L.StopsAt toPage p)
    (hip : i < p) : keepPage fromPage toPage out (L.pages.getD i []) (i + 1) ++
      L.kept fromPage (i + 1) p = out ++ L.kept fromPage i p := by
  rw [keepPage_eq hto (hip.trans_le hp.le), L.kept_eq fromPage hip (hp.le.trans (L.stop_le toPage)),
    List.append_assoc]

/-- How the rest of a call from page `i` on ends: with the pages up to `p` fetched, and those in
the range kept. -/
def Rest (L : Listing) (folder parent : String) (fromPage toPage : ℤ) (i p : ℕ)
    (out : List DriveFile) (s : Site L.service) (r : Except Exc (List DriveFile))
    (s' : Site L.service) : Prop :=
  s'.drive = s.drive ++ L.fetches toPage i p ∧
    L.Ends folder parent toPage p (out ++ L.kept fromPage i p) s.mem r s'.mem

/-- A page that cannot be fetched ends the call. -/
theorem completes_failing {folder parent : String} {tok : Option PageToken} {out : List DriveFile}
    (hp : L.StopsAt toPage p) (hstop : p < L.stop toPage) (hask : L.Asks tok p) :
    Completes w (iterate (cp.listRound folder fromPage toPage parent) (out, tok, p))
      (fun files w' => L.Rest folder parent fromPage toPage p p out w.state (.ok files) w'.state)
      (fun e w' => L.Rest folder parent fromPage toPage p p out w.state (.error e) w'.state) := by
  obtain ⟨e, he⟩ := Option.isSome_iff_exists.mp (hp.fails hstop)
  have hanswer : L.answer p = .error e := by
    unfold answer
    rw [he]
  have hfetches : L.fetches toPage p p = [p] := by
    rw [fetches_eq le_rfl hstop]
    simp [fetches]
  have hends : ∀ r (s' : Site L.service), s'.drive = w.state.drive ++ [p] →
      (e.isFatalQuota = false → r = .ok out ∧ Reports folder parent w.state.mem s'.mem) →
      (e.isFatalQuota = true → ∃ reason, r = .error (.quotaStopped reason)) →
      L.Rest folder parent fromPage toPage p p out w.state r s' := by
    intro r s' hdrive hreports hquota
    refine ⟨by rw [hdrive, hfetches], ?_⟩
    unfold Ends
    rw [if_neg (ne_of_lt hstop), kept_self, List.append_nil]
    exact ⟨e, he, hreports, hquota⟩
  apply Completes.iterate_step
  unfold listRound
  apply Completes.bind (R := fun x w' => x = L.answer p ∧
    w'.state = ⟨w.state.mem, w.state.drive ++ [p]⟩)
    (ask_page (hstop.trans_le (L.stop_le toPage)) hask fun _ => ⟨rfl, rfl⟩)
  rintro x ⟨_, past⟩ ⟨rfl, rfl⟩
  rw [hanswer]
  apply completes_listingFailed
  · intro hquota w' hdrive hreports
    exact hends _ _ hdrive (fun _ => ⟨rfl, hreports⟩)
      fun h => absurd (hquota.symm.trans h) (by decide)
  · intro hquota w' reason hdrive
    exact hends _ _ hdrive (fun h => absurd (hquota.symm.trans h) (by decide))
      fun _ => ⟨reason, rfl⟩

/-- From page `i` on, the call fetches the pages up to `p` and keeps those in its range. -/
theorem completes_from {folder parent : String} (hto : 0 ≤ toPage) (hp : L.StopsAt toPage p)
    (n : ℕ) : ∀ {i : ℕ}, p - i = n → i ≤ p → i < L.stop toPage →
      ∀ (w : Scene cp L.service) (out : List DriveFile) {tok : Option PageToken}, L.Asks tok i →
      Completes w (iterate (cp.listRound folder fromPage toPage parent) (out, tok, i))
        (fun files w' => L.Rest folder parent fromPage toPage i p out w.state (.ok files) w'.state)
        (fun e w' => L.Rest folder parent fromPage toPage i p out w.state (.error e) w'.state) := by
  induction n with
  | zero =>
    intro i hn hle hi w out tok hask
    obtain rfl : i = p := by omega
    exact completes_failing hp hi hask
  | succ n ih =>
    intro i hn hle hi w out tok hask
    have hanswer : L.answer i = .ok (L.pages.getD i [],
        if i + 1 < L.pages.length then some (L.token (i + 1)) else none) := by
      unfold answer
      rw [hp.clean i (by omega)]
    have hpage : keepPage fromPage toPage out (L.pages.getD i []) (i + 1) ++
        L.kept fromPage (i + 1) p = out ++ L.kept fromPage i p :=
      keepPage_append hto hp (by omega)
    have hfetches : w.state.drive ++ [i] ++ L.fetches toPage (i + 1) p =
        w.state.drive ++ L.fetches toPage i p := by
      rw [fetches_eq hle hi, List.append_assoc, List.singleton_append]
    have hstop_le := L.stop_le toPage
    have hp_le := hp.le
    have hlast : i + 1 = L.stop toPage → L.Rest folder parent fromPage toPage i p out w.state
        (.ok (keepPage fromPage toPage out (L.pages.getD i []) (i + 1)))
        ⟨w.state.mem, w.state.drive ++ [i]⟩ := by
      intro hstop
      obtain rfl : p = i + 1 := by omega
      unfold Rest Ends
      rw [← hfetches, ← hpage, kept_self, List.append_nil, if_pos hstop]
      refine ⟨?_, rfl, rfl⟩
      simp [fetches, ← hstop]
    apply Completes.iterate_step
    unfold listRound
    apply Completes.bind (R := fun x w' => x = L.answer i ∧
      w'.state = ⟨w.state.mem, w.state.drive ++ [i]⟩)
      (ask_page (hi.trans_le hstop_le) hask fun _ => ⟨rfl, rfl⟩)
    rintro x ⟨_, past⟩ ⟨rfl, rfl⟩
    rw [hanswer]
    dsimp only
    by_cases hnext : i + 1 < L.pages.length
    · rw [if_pos hnext]
      dsimp only
      by_cases hend : (decide (0 < toPage) && decide (toPage ≤ ((i + 1 : ℕ) : ℤ))) = true
      · rw [if_pos hend]
        apply Completes.pure
        apply hlast
        simp only [Bool.and_eq_true, decide_eq_true_eq] at hend
        unfold stop at hi ⊢
        split_ifs at hi ⊢ <;> omega
      · rw [if_neg hend]
        apply Completes.pure
        have hmore : i + 1 < L.stop toPage := by
          simp only [Bool.and_eq_true, decide_eq_true_eq] at hend
          unfold stop at hi ⊢
          split_ifs at hi ⊢ <;> omega
        have hrest := ih (i := i + 1) (by omega) (by omega) hmore
          (⟨⟨w.state.mem, w.state.drive ++ [i]⟩, past⟩ : Scene cp L.service)
          (keepPage fromPage toPage out (L.pages.getD i []) (i + 1))
          (show L.Asks (some (L.token (i + 1))) (i + 1) from ⟨by omega, rfl⟩)
        unfold Rest at hrest ⊢
        simp only [hpage, hfetches] at hrest
        exact hrest
    · rw [if_neg hnext]
      apply Completes.pure
      apply hlast
      omega

/-! ## Consecutive ranges -/

/-- The page ranges that `validate` lets through. -/
def ValidRange (fromPage toPage : ℤ) : Prop :=
  0 ≤ fromPage ∧ 0 ≤ toPage ∧ ¬(fromPage ≠ 0 ∧ toPage ≠ 0 ∧ toPage < fromPage)

theorem validRange_of_validate {showFloat : ℚ → String} {c : CopyConfig}
    (h : c.validate showFloat = []) : ValidRange c.fromPage c.toPage := by
  unfold CopyConfig.validate at h
  simp only [List.append_eq_nil_iff] at h
  obtain ⟨⟨⟨-, hfrom⟩, hto⟩, hrange⟩ := h
  refine ⟨?_, ?_, ?_⟩
  · by_contra hneg
    rw [if_pos (not_le.mp hneg)] at hfrom
    exact nomatch hfrom
  · by_contra hneg
    rw [if_pos (not_le.mp hneg)] at hto
    exact nomatch hto
  · intro hcross
    rw [if_pos hcross] at hrange
    exact nomatch hrange

/-- A call for a valid range ends. It fetches the pages up to the first that fails or the end of
the range, and no other. -/
theorem listChildren_yields (L : Listing) (cp : Copier) (folder parent : String)
    (hvalid : ValidRange fromPage toPage) (hp : L.StopsAt toPage p) (s : Site L.service) :
    Yields (cp.undisturbed L.service) (cp.listChildren folder fromPage toPage parent) s
      fun r w => w.state.drive = s.drive ++ List.range (min (p + 1) (L.stop toPage)) ∧
        L.Ends folder parent toPage p (L.kept fromPage 0 p) s.mem r w.state.mem := by
  have hpos : 0 < L.stop toPage := by
    have hpages := List.length_pos_of_ne_nil L.nonempty
    have hto := hvalid.2.1
    unfold stop
    split_ifs <;> omega
  have hcompletes := @completes_from L cp fromPage toPage p folder parent hvalid.2.1 hp (p - 0) 0
    rfl (Nat.zero_le p) hpos ⟨s, []⟩ [] none rfl
  apply Alone.yields (cp.undisturbed_env L.service)
  apply Alone.mono hcompletes
  rintro (e | files) w h
  · simpa [Rest, fetches, List.range_eq_range'] using h
  · simpa [Rest, fetches, List.range_eq_range'] using h

/-- The range begins at a page, where zero stands for the first. -/
def Begins (fromPage : ℤ) (a : ℕ) : Prop := fromPage = a ∨ fromPage = 0 ∧ a = 1

/-- Valid ranges that follow one another from page `a` to the end of the listing. -/
inductive Tiles (n : ℕ) : ℕ → List (ℤ × ℤ) → Prop
  | last {a : ℕ} {fromPage toPage : ℤ} (hfrom : Begins fromPage a) (hto : toPage = 0 ∨ n ≤ toPage)
      (hvalid : ValidRange fromPage toPage) : Tiles n a [(fromPage, toPage)]
  | cons {a b : ℕ} {fromPage : ℤ} {rest : List (ℤ × ℤ)} (hfrom : Begins fromPage a)
      (hle : a ≤ b) (hvalid : ValidRange fromPage b) (hrest : Tiles n (b + 1) rest) :
    Tiles n a ((fromPage, (b : ℤ)) :: rest)

theorem Tiles.valid {n a : ℕ} {ranges : List (ℤ × ℤ)} (h : Tiles n a ranges) :
    ∀ r ∈ ranges, ValidRange r.1 r.2 := by
  induction h with
  | last _ _ hvalid =>
    intro r hr
    rwa [List.mem_singleton.mp hr]
  | cons _ _ hvalid _ ih =>
    intro r hr
    rcases List.mem_cons.mp hr with rfl | hr
    · exact hvalid
    · exact ih r hr

theorem Begins.toNat {a : ℕ} (h : Begins fromPage a) : fromPage.toNat - 1 = a - 1 := by
  rcases h with rfl | ⟨rfl, rfl⟩
  · rfl
  · rfl

theorem stop_last (h : toPage = 0 ∨ (L.pages.length : ℤ) ≤ toPage) :
    L.stop toPage = L.pages.length := by
  unfold stop
  split_ifs with hzero
  · rfl
  · omega

/-- What the ranges keep, one after another, is what is listed from their first page on. -/
theorem flatten_kept {ranges : List (ℤ × ℤ)} {a : ℕ} (ha : 1 ≤ a)
    (h : Tiles L.pages.length a ranges) :
    (ranges.map fun r => L.kept r.1 0 (L.stop r.2)).flatten =
      (L.pages.drop (a - 1)).flatten.map DriveFile.fromApi := by
  induction h with
  | last hfrom hto _ =>
    unfold kept
    rw [List.map_singleton, List.flatten_singleton, stop_last hto, hfrom.toNat,
      List.take_length, Nat.zero_max]
  | @cons a b fromPage rest hfrom hle _ _ ih =>
    have htake : L.pages.take (L.stop b) = L.pages.take b := by
      have hb : (b : ℤ) ≠ 0 := by omega
      unfold stop
      rw [if_neg hb, Int.toNat_natCast, min_comm, ← List.take_eq_take_min]
    have hdrop : L.pages.drop (a - 1) =
        (L.pages.take b).drop (a - 1) ++ L.pages.drop b := by
      have hsplit := List.take_append_drop (b - (a - 1)) (L.pages.drop (a - 1))
      rw [List.drop_drop, show a - 1 + (b - (a - 1)) = b by omega] at hsplit
      rw [List.drop_take, hsplit]
    rw [List.map_cons, List.flatten_cons, ih (by omega), Nat.add_sub_cancel, hdrop,
      List.flatten_append, List.map_append]
    simp [kept, htake, hfrom.toNat]

/-- Each call for a valid range ends, with the files of its range up to the first page that
fails, and fetches no page after its range. When no page fails, the calls for consecutive ranges
return the whole listing, in order. -/
theorem page_ranges_tile (L : Listing) (folder parent : String) :
    (∀ (cp : Copier) (fromPage toPage : ℤ), ValidRange fromPage toPage → ∀ s : Site L.service,
      ∃ p, L.StopsAt toPage p ∧
        (∀ i < min (p + 1) (L.stop toPage), toPage = 0 ∨ (i : ℤ) + 1 ≤ toPage) ∧
        Yields (cp.undisturbed L.service) (cp.listChildren folder fromPage toPage parent) s
          fun r w => w.state.drive = s.drive ++ List.range (min (p + 1) (L.stop toPage)) ∧
            L.Ends folder parent toPage p (L.kept fromPage 0 p) s.mem r w.state.mem) ∧
    ((∀ i, L.fails i = none) → ∀ ranges : List (ℤ × ℤ), Tiles L.pages.length 1 ranges →
      ∀ results : List (List DriveFile),
        List.Forall₂ (fun r files => ∃ (cp : Copier) (s : Site L.service)
          (c : Config (cp.undisturbed L.service) (Except Exc (List DriveFile))),
          Reach _ (start _ (cp.listChildren folder r.1 r.2 parent) s []) c ∧
            c.Returned (.ok files)) ranges results →
        results.flatten = L.pages.flatten.map DriveFile.fromApi) := by
  constructor
  · intro cp fromPage toPage hvalid s
    obtain ⟨p, hp⟩ := L.exists_stopsAt toPage
    refine ⟨p, hp, ?_, L.listChildren_yields cp folder parent hvalid hp s⟩
    intro i hi
    have hto := hvalid.2.1
    unfold stop at hi
    split_ifs at hi <;> omega
  · intro hclean ranges htiles results hresults
    have hvalid : ∀ r ∈ ranges, ValidRange r.1 r.2 := htiles.valid
    have hkept : results = ranges.map fun r => L.kept r.1 0 (L.stop r.2) := by
      clear htiles
      induction hresults with
      | nil => rfl
      | @cons r files ranges results hrun _ ih =>
        obtain ⟨cp, s, c, hreach, hreturned⟩ := hrun
        have hp : L.StopsAt r.2 (L.stop r.2) :=
          ⟨le_rfl, fun i _ => hclean i, fun h => absurd h (lt_irrefl _)⟩
        have hyields := L.listChildren_yields cp folder parent
          (hvalid r List.mem_cons_self) hp s
        obtain ⟨-, hends⟩ := hyields.returned c _ hreach hreturned
        unfold Ends at hends
        rw [if_pos rfl] at hends
        rw [List.map_cons, ← Except.ok.inj hends.1,
          ih fun r' hr' => hvalid r' (List.mem_cons_of_mem r hr')]
    rw [hkept, flatten_kept le_rfl htiles]
    rfl

/-! ## Three pages in two ranges -/

/-- A page with one file, an empty one, and one with two files. -/
def threePages : Listing where
  pages := [[{ id := "a", name := "a.txt", mimeType := "text/plain" }], [],
    [{ id := "b", name := "b.txt", mimeType := "text/plain" },
      { id := "c", name := "c.txt", mimeType := "text/plain" }]]
  nonempty := by decide
  token i := ⟨[], i⟩
  distinct _ _ h := congrArg PageToken.left h
  fails _ := none

theorem threePages_stopsAt {toPage : ℤ} {p : ℕ} (hp : threePages.StopsAt toPage p) :
    p = threePages.stop toPage := by
  refine le_antisymm hp.le (not_lt.mp fun hlt => ?_)
  exact nomatch hp.fails hlt

/-- The calls for pages 1 to 2 and from page 3 on return the listing in two parts. -/
theorem page_ranges_tile_three : ∃ first rest : List DriveFile,
    List.Forall₂ (fun r files => ∃ (cp : Copier) (s : Site threePages.service)
      (c : Config (cp.undisturbed threePages.service) (Except Exc (List DriveFile))),
      Reach _ (start _ (cp.listChildren "root" r.1 r.2 "root") s []) c ∧ c.Returned (.ok files))
      [((1 : ℤ), (2 : ℤ)), (3, 0)] [first, rest] ∧
    first.map DriveFile.id = ["a"] ∧ rest.map DriveFile.id = ["b", "c"] ∧
    [first, rest].flatten = threePages.pages.flatten.map DriveFile.fromApi := by
  have hcall (fromPage toPage : ℤ) (hvalid : ValidRange fromPage toPage) :
      ∃ (cp : Copier) (s : Site threePages.service)
        (c : Config (cp.undisturbed threePages.service) (Except Exc (List DriveFile))),
        Reach _ (start _ (cp.listChildren "root" fromPage toPage "root") s []) c ∧
          c.Returned (.ok (threePages.kept fromPage 0 (threePages.stop toPage))) := by
    let s : Site threePages.service := ⟨smallCopier.freshMem "", []⟩
    obtain ⟨p, hp, -, hyields⟩ :=
      (page_ranges_tile threePages "root" "root").1 smallCopier fromPage toPage hvalid s
    obtain ⟨c, r, hc, hr⟩ := hyields.completes _ .refl
    have hends := (hyields.returned c r hc hr).2
    unfold Ends at hends
    rw [threePages_stopsAt hp, if_pos rfl] at hends
    obtain ⟨rfl, -⟩ := hends
    exact ⟨smallCopier, s, c, hc, hr⟩
  have hvalid₁ : ValidRange 1 2 := ⟨by decide, by decide, by decide⟩
  have hvalid₂ : ValidRange 3 0 := ⟨by decide, by decide, by decide⟩
  have htiles : Tiles threePages.pages.length 1 [((1 : ℤ), (2 : ℤ)), (3, 0)] :=
    .cons (b := 2) (.inl rfl) (by decide) hvalid₁ (.last (.inl rfl) (.inl rfl) hvalid₂)
  refine ⟨threePages.kept 1 0 (threePages.stop 2), threePages.kept 3 0 (threePages.stop 0),
    .cons (hcall 1 2 hvalid₁) (.cons (hcall 3 0 hvalid₂) .nil), by decide, by decide, ?_⟩
  exact (page_ranges_tile threePages "root" "root").2 (fun _ => rfl) _ htiles _
    (.cons (hcall 1 2 hvalid₁) (.cons (hcall 3 0 hvalid₂) .nil))

end Listing
end TurboCopy

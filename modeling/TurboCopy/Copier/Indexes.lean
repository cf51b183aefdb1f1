import TurboCopy.Copier.Outcomes

/-!
# What an index still holds

The index of a level starts from a listing and loses what lookups take. A listed file that
is not found under its key was taken before, either for its own source or by the rule of
the mode for another one. Since a level asks once for each of its items, a miss of an
item that the listing holds means that another item took its file.
-/

namespace TurboCopy

open Threads DestinationIndex

/-! ## The history of an index -/

/-- The index `i` was built for the folder `dest` from the listing `items`. -/
def Opened (past : List (Event copierSig)) (dest : Option String) (items : List DriveFile)
    (i : ℕ) : Prop := .did (.mem (.newIndex dest items)) i ∈ past

/-- The effective id for which an event took a file from the index `i`, and the file. -/
def took (i : ℕ) : Event copierSig → Option (String × DriveFile)
  | .did (.mem (.trustResume i' eff _)) (some item) => if i' = i then some (eff, item) else none
  | .did (.mem (.popMatch i' _ _ _ eff)) (some item) => if i' = i then some (eff, item) else none
  | _ => none

def Took (past : List (Event copierSig)) (i : ℕ) (eff : String) (item : DriveFile) : Prop :=
  ∃ e ∈ past, took i e = some (eff, item)

/-- The file under a key was taken for another item. -/
def Stolen (past : List (Event copierSig)) (i : ℕ) (key : String) : Prop :=
  ∃ eff item, Took past i eff item ∧ eff ≠ key ∧ item.sourceKey = some key

/-- How often an index was asked with success for an effective id. -/
def served (i : ℕ) (key : String) (past : List (Event copierSig)) : ℕ :=
  ((past.filterMap (took i)).filter fun p => p.1 = key).length

/-- The item of a job was looked up in vain: its file was not listed, or was stolen. -/
def Missed (past : List (Event copierSig)) (j : FileJob) : Prop :=
  ∃ items, Opened past j.dest items j.index ∧
    ((∃ item ∈ items, Keyed item j.eff) → Stolen past j.index j.eff)

section History

variable {past : List (Event copierSig)} {e : Event copierSig} {dest : Option String}
  {items : List DriveFile} {i : ℕ} {eff key : String} {item : DriveFile} {j : FileJob}

theorem Opened.mono (h : Opened past dest items i) : Opened (e :: past) dest items i :=
  List.mem_cons_of_mem _ h

theorem Took.mono (h : Took past i eff item) : Took (e :: past) i eff item := by
  obtain ⟨e', he, h⟩ := h
  exact ⟨e', List.mem_cons_of_mem _ he, h⟩

theorem Took.of_cons (h : Took (e :: past) i eff item) :
    took i e = some (eff, item) ∨ Took past i eff item := by
  obtain ⟨e', he, h⟩ := h
  rcases List.mem_cons.mp he with rfl | he
  · exact .inl h
  · exact .inr ⟨e', he, h⟩

theorem Stolen.mono (h : Stolen past i key) : Stolen (e :: past) i key := by
  obtain ⟨eff, item, ht, h⟩ := h
  exact ⟨eff, item, ht.mono, h⟩

theorem Missed.mono (h : Missed past j) : Missed (e :: past) j := by
  obtain ⟨items, ho, h⟩ := h
  exact ⟨items, ho.mono, fun hk => (h hk).mono⟩

theorem served_cons_none (h : took i e = none) : served i key (e :: past) = served i key past := by
  rw [served, List.filterMap_cons_none h, served]

theorem served_cons_take {n : ℕ} (h : ∀ k, took k e = if n = k then some (eff, item) else none) :
    served i key (e :: past) = served i key past + if n = i ∧ eff = key then 1 else 0 := by
  by_cases hi : n = i
  · have hs : took i e = some (eff, item) := by rw [h, if_pos hi]
    rw [served, List.filterMap_cons_some hs, List.filter_cons, served]
    by_cases hp : eff = key <;> simp [hp, hi]
  · rw [served_cons_none (by rw [h, if_neg hi]), if_neg fun hc => hi hc.1, add_zero]

/-- A success for the key itself counts. -/
theorem Took.served_pos (h : Took past i key item) : 0 < served i key past := by
  obtain ⟨e, he, ht⟩ := h
  refine List.length_pos_of_mem (a := (key, item)) (List.mem_filter.mpr ⟨?_, by simp⟩)
  exact List.mem_filterMap.mpr ⟨e, he, ht⟩

end History

/-! ## Tokens know their index -/

/-- The index of a token was built for its folder, and a job past its lookup missed. -/
def Token.Indexed (past : List (Event copierSig)) : Token → Prop
  | .file j .start => ∃ items, Opened past j.dest items j.index
  | .shortcut l i _ => ∃ items, Opened past l.dest items i
  | _ => True

/-- The lookups in `i` for `key` that a token has still to make. -/
def Token.asks (i : ℕ) (key : String) : Token → ℕ
  | .file j .start => if j.index = i ∧ j.eff = key then 1 else 0
  | .shortcut _ i' src => if i' = i ∧ src.id = key then 1 else 0
  | _ => 0

section Indexed

variable {V : Service} {ok : StepCondition V} {cp : Copier} {past : List (Event copierSig)}

theorem Token.Indexed.mono {e : Event copierSig} {t : Token} (h : t.Indexed past) :
    t.Indexed (e :: past) := by
  cases t with
  | file j st =>
    cases st with
    | start =>
      obtain ⟨items, h⟩ := h
      exact ⟨items, h.mono⟩
    | _ => trivial
  | shortcut l i src =>
    obtain ⟨items, h⟩ := h
    exact ⟨items, h.mono⟩
  | _ => trivial

theorem indexed_entry {l : Level} {i : ℕ} {src : DriveFile}
    (h : ∃ items, Opened past l.dest items i) : (Token.entry l i src).Indexed past := by
  unfold Token.entry
  split_ifs
  · exact h
  · trivial
  · exact h

theorem indexed_target {l : Level} {i : ℕ} {src target : DriveFile}
    (h : ∃ items, Opened past l.dest items i) : (Token.target l i src target).Indexed past := by
  unfold Token.target
  split_ifs
  · trivial
  · exact h

theorem indexed_keeps : KeepsEach (V := V) cp ok Always fun _ past => Token.Indexed past where
  stable _ _ h := h.mono
  enters h := h.mono
  requests _ h := h
  stopped := trivial
  complete := trivial
  file hr _ _ h := by
    cases hr with
    | distrusted j =>
      have hj := each_singleton.mp h
      exact each_singleton.mpr hj.mono
    | _ => simp [Token.Indexed]
  folder hr _ _ _ := by
    cases hr <;> simp [Token.Indexed]
  list hr _ _ h := by
    cases hr with
    | multiLast group out tok files => exact each_map.mpr fun _ _ => trivial
    | resolved l i src target data ht =>
      have hl := each_singleton.mp h
      exact each_singleton.mpr (indexed_target ⟨_, hl.choose_spec.mono⟩)
    | index l items i =>
      exact each_map.mpr fun src _ => indexed_entry ⟨items, List.mem_cons_self⟩
    | _ => simp [Token.Indexed]
  store hr _ _ _ := by
    cases hr <;> simp [Token.Indexed]
  run hr _ _ _ := by
    cases hr with
    | destRoot name d u =>
      exact each_add.mpr ⟨each_singleton.mpr trivial, each_rootTokens fun _ => trivial⟩
    | _ => simp [Token.Indexed]
  call hc _ _ := by
    cases hc
    simp [Token.Indexed]
  shift hc _ h := by
    cases hc with
    | batch group => exact each_add.mpr ⟨h, each_singleton.mpr trivial⟩
    | _ => simp_all [Token.Indexed]

end Indexed

/-! ## The indexes of the memory -/

/-- The indexes against the history: they are those that were built, they name files by
their keys, and a listed file is there unless it was taken. -/
structure Shelved {V : Service} (s : Site V) (past : List (Event copierSig)) : Prop where
  opened : ∀ dest items i, Opened past dest items i → i < s.mem.indexes.length
  taken : ∀ i eff item, Took past i eff item → i < s.mem.indexes.length
  keyed : ∀ i key item, AList.lookup key (s.mem.indexAt i).appProps = some item →
    item.sourceKey = some key
  held : ∀ dest items i key, Opened past dest items i → (∃ item ∈ items, Keyed item key) →
    (AList.lookup key (s.mem.indexAt i).appProps).isSome ∨
      ∃ eff item, Took past i eff item ∧ item.sourceKey = some key

theorem Mem.lt_of_indexAt_ne {m : Mem} {i : ℕ} (h : m.indexAt i ≠ {}) : i < m.indexes.length := by
  by_contra hi
  refine h ?_
  rw [Mem.indexAt, List.getElem?_eq_none (not_lt.mp hi)]
  rfl

theorem Mem.indexAt_setIndex (m : Mem) (i k : ℕ) (idx : DestinationIndex) :
    (m.setIndex i idx).indexAt k = m.indexAt k ∨ k = i ∧ (m.setIndex i idx).indexAt k = idx := by
  simp only [Mem.indexAt, Mem.setIndex, List.getElem?_modify]
  by_cases hk : k = i
  · subst hk
    cases hc : m.indexes[k]? with
    | none => exact .inl (by simp)
    | some c => exact .inr ⟨rfl, by simp⟩
  · exact .inl (by simp [Ne.symm hk])

section Shelved

variable {V : Service} {ok : StepCondition V} {cp : Copier} {past : List (Event copierSig)}
  {s s' : Site V} {o : CopierOp} {x : o.Out}

/-- A step that leaves the indexes alone. -/
theorem Shelved.frame (h : Shelved s past) {e : Event copierSig}
    (hi : s'.mem.indexes = s.mem.indexes) (htook : ∀ i, took i e = none)
    (he : ∀ dest items i, e ≠ .did (.mem (.newIndex dest items)) i) : Shelved s' (e :: past) := by
  have hat (i : ℕ) : s'.mem.indexAt i = s.mem.indexAt i := by rw [Mem.indexAt, Mem.indexAt, hi]
  have hopen {dest : Option String} {items : List DriveFile} {i : ℕ}
      (ho : Opened (e :: past) dest items i) : Opened past dest items i := by
    rcases List.mem_cons.mp ho with ho | ho
    · exact absurd ho.symm (he dest items i)
    · exact ho
  refine ⟨fun dest items i ho => ?_, fun i eff item ht => ?_, fun i key item hl => ?_,
    fun dest items i key ho hk => ?_⟩
  · rw [hi]
    exact h.opened dest items i (hopen ho)
  · rw [hi]
    rcases ht.of_cons with ht | ht
    · exact absurd ht (by rw [htook]; simp)
    · exact h.taken i eff item ht
  · rw [hat] at hl
    exact h.keyed i key item hl
  · rw [hat]
    refine (h.held dest items i key (hopen ho) hk).imp_right ?_
    rintro ⟨eff, item, ht, hs⟩
    exact ⟨eff, item, ht.mono, hs⟩

/-- A lookup that takes a file from the index `i`. -/
theorem Shelved.take (h : Shelved s past) {i : ℕ} {idx : DestinationIndex} {eff : String}
    {item : DriveFile} {e : Event copierSig}
    (ht : ∀ k, took k e = if i = k then some (eff, item) else none)
    (hlt : i < s.mem.indexes.length)
    (hi : s'.mem.indexes = (s.mem.setIndex i idx).indexes)
    (he : ∀ dest items i, e ≠ .did (.mem (.newIndex dest items)) i)
    (hidx : ∀ k, AList.lookup k idx.appProps = AList.lookup k (s.mem.indexAt i).appProps ∨
      AList.lookup k idx.appProps = none ∧
        AList.lookup k (s.mem.indexAt i).appProps = some item) : Shelved s' (e :: past) := by
  have hat (k : ℕ) (key : String) :
      AList.lookup key (s'.mem.indexAt k).appProps = AList.lookup key (s.mem.indexAt k).appProps ∨
        k = i ∧ AList.lookup key (s'.mem.indexAt k).appProps = none ∧
          AList.lookup key (s.mem.indexAt i).appProps = some item := by
    have hsame : s'.mem.indexAt k = (s.mem.setIndex i idx).indexAt k := by
      rw [Mem.indexAt, Mem.indexAt, hi]
    rw [hsame]
    rcases s.mem.indexAt_setIndex i k idx with hk | ⟨rfl, hk⟩
    · exact .inl (by rw [hk])
    · rw [hk]
      exact (hidx key).imp_right fun hn => ⟨rfl, hn⟩
  have hopen {dest : Option String} {items : List DriveFile} {k : ℕ}
      (ho : Opened (e :: past) dest items k) : Opened past dest items k := by
    rcases List.mem_cons.mp ho with ho | ho
    · exact absurd ho.symm (he dest items k)
    · exact ho
  refine ⟨fun dest items k ho => ?_, fun k eff' it htk => ?_, fun k key it hl => ?_,
    fun dest items k key ho hk => ?_⟩
  · rw [hi, Mem.setIndex, List.length_modify]
    exact h.opened dest items k (hopen ho)
  · rw [hi, Mem.setIndex, List.length_modify]
    rcases htk.of_cons with htk | htk
    · rw [ht] at htk
      split_ifs at htk with hk
      exact hk ▸ hlt
    · exact h.taken k eff' it htk
  · rcases hat k key with hk | ⟨-, hk, -⟩
    · rw [hk] at hl
      exact h.keyed k key it hl
    · rw [hk] at hl
      cases hl
  · rcases hat k key with hk' | ⟨rfl, -, hl⟩
    · rw [hk']
      refine (h.held dest items k key (hopen ho) hk).imp_right ?_
      rintro ⟨eff', item', ht', hs⟩
      exact ⟨eff', item', ht'.mono, hs⟩
    · exact .inr ⟨eff, item, ⟨e, List.mem_cons_self, by rw [ht, if_pos rfl]⟩,
        h.keyed k key item hl⟩

theorem Shelved.build (h : Shelved s past) {dest : Option String} {items : List DriveFile} {x : ℕ}
    (hs : s.Step ok (.mem (.newIndex dest items)) x s') :
    Shelved s' (.did (.mem (.newIndex dest items)) x :: past) := by
  obtain ⟨rfl, rfl, -⟩ := hs
  have hnew : (s.mem.exec (.newIndex dest items)).2.indexAt s.mem.indexes.length =
      DestinationIndex.build items := by
    simp [Mem.indexAt, Mem.exec]
  have hold {k : ℕ} (hk : k ≠ s.mem.indexes.length) :
      (s.mem.exec (.newIndex dest items)).2.indexAt k = s.mem.indexAt k := by
    simp only [Mem.indexAt, Mem.exec]
    rcases lt_or_gt_of_ne hk with hk | hk
    · rw [List.getElem?_append_left hk]
    · rw [List.getElem?_eq_none (by simp; omega), List.getElem?_eq_none (by omega)]
  have hlen : (s.mem.exec (.newIndex dest items)).2.indexes.length = s.mem.indexes.length + 1 := by
    simp [Mem.exec]
  refine ⟨fun dest' items' k ho => ?_, fun k eff it ht => ?_, fun k key it hl => ?_,
    fun dest' items' k key ho hk => ?_⟩
  · rw [hlen]
    rcases List.mem_cons.mp ho with ho | ho
    · cases ho
      exact Nat.lt_succ_self _
    · exact Nat.lt_succ_of_lt (h.opened dest' items' k ho)
  · rw [hlen]
    rcases ht.of_cons with ht | ht
    · cases ht
    · exact Nat.lt_succ_of_lt (h.taken k eff it ht)
  · by_cases hk : k = s.mem.indexes.length
    · subst hk
      rw [hnew] at hl
      exact (lookup_build hl).2.2
    · rw [hold hk] at hl
      exact h.keyed k key it hl
  · rcases List.mem_cons.mp ho with ho | ho
    · cases ho
      obtain ⟨item, hm, hkey⟩ := hk
      have hb := build_lookup hm hkey
      rw [← hnew] at hb
      exact .inl hb
    · have hlt := h.opened dest' items' k ho
      rw [hold hlt.ne]
      refine (h.held dest' items' k key ho hk).imp_right ?_
      rintro ⟨eff, item, ht, hs⟩
      exact ⟨eff, item, ht.mono, hs⟩

theorem Shelved.step (hs : s.Step ok o x s') (h : Shelved s past) :
    Shelved s' (.did o x :: past) := by
  cases o with
  | ask q => exact h.frame (by rw [hs.2.1]) (fun _ => rfl) (by rintro _ _ _ ⟨⟩)
  | mem o =>
    cases o with
    | newIndex dest items => exact h.build hs
    | trustResume i eff src =>
      cases x with
      | none =>
        obtain ⟨-, rfl⟩ := hs.distrusted
        exact h.frame rfl (fun _ => rfl) (by rintro _ _ _ ⟨⟩)
      | some item =>
        obtain ⟨idx, hp, rfl⟩ := hs.trusted
        have hne : s.mem.indexAt i ≠ {} := fun hi => by
          have he := popByAppProp_empty eff
          rw [← hi, hp] at he
          cases he
        exact h.take (fun _ => rfl) (Mem.lt_of_indexAt_ne hne) rfl (by rintro _ _ _ ⟨⟩)
          (lookup_popByAppProp hp)
    | popMatch i src mode allow eff =>
      cases x with
      | none =>
        obtain ⟨-, rfl⟩ := hs.missing
        exact h.frame rfl (fun _ => rfl) (by rintro _ _ _ ⟨⟩)
      | some item =>
        obtain ⟨idx, hp, rfl⟩ := hs.matched
        have hne : s.mem.indexAt i ≠ {} := fun hi => by
          have he := popMatch_empty src mode allow eff
          rw [← hi, hp] at he
          cases he
        exact h.take (fun _ => rfl) (Mem.lt_of_indexAt_ne hne) rfl (by rintro _ _ _ ⟨⟩)
          (lookup_popMatch hp)
    | reserve maxGb size reason =>
      refine h.frame ?_ (fun _ => rfl) (by rintro _ _ _ ⟨⟩)
      rw [hs.after]
      simp only [Mem.after, Mem.exec]
      split_ifs <;> rfl
    | beginSave force =>
      refine h.frame ?_ (fun _ => rfl) (by rintro _ _ _ ⟨⟩)
      rw [hs.after]
      simp only [Mem.after, Mem.exec]
      split_ifs <;> rfl
    | _ => exact h.frame (by rw [hs.after]; rfl) (fun _ => rfl) (by rintro _ _ _ ⟨⟩)

theorem Shelved.keeps : Keeps (V := V) cp ok Always fun s past _ => Shelved s past :=
  Keeps.of_step Shelved.step (fun h => h.frame rfl (fun _ => rfl) fun _ _ _ he => nomatch he) fun _ h =>
    ⟨h.opened, h.taken, h.keyed, h.held⟩

end Shelved

/-! ## Every item asks once -/

/-- The levels of the history list different items, each with an id. -/
def Distinct (past : List (Event copierSig)) : Prop :=
  ∀ l, .entered l ∈ past → (l.children.map DriveFile.id).Nodup ∧ ∀ x ∈ l.children, x.id ≠ ""

theorem Distinct.tail {past : List (Event copierSig)} {e : Event copierSig}
    (h : Distinct (e :: past)) : Distinct past := fun l hl => h l (List.mem_cons_of_mem _ hl)

/-- The lookups made and still to be made for a key in an index. -/
def AskedOnce {V : Service} : Invariant V := fun _ past G =>
  Distinct past → ∀ i key, key ≠ "" → total (Token.asks i key) G + served i key past ≤ 1

section AskedOnce

variable {V : Service} {ok : StepCondition V} {cp : Copier} {past : List (Event copierSig)}
  {s s' : Site V} {o : CopierOp} {x : o.Out} {G τ τ' : Multiset Token} {i : ℕ} {key : String}
  {sourceId destParent : String}

theorem asks_entry (l : Level) (index : ℕ) (src : DriveFile) :
    (Token.entry l index src).asks i key ≤ if src.id = key then 1 else 0 := by
  unfold Token.entry
  split_ifs with h₁ h₂ h₃ h₃ <;> simp_all [Token.asks, FileJob.eff] <;> split_ifs <;> omega

theorem asks_target (l : Level) (index : ℕ) (src target : DriveFile) (h : src.id ≠ "") :
    (Token.target l index src target).asks i key ≤ (Token.shortcut l index src).asks i key := by
  unfold Token.target
  split_ifs
  · exact Nat.zero_le _
  · simp [Token.asks, FileJob.eff, orElse_some h]

theorem total_asks_entries (l : Level) (index : ℕ) (xs : List DriveFile) :
    total (Token.asks i key) (Multiset.map (Token.entry l index) xs) ≤
      (xs.map DriveFile.id).count key := by
  induction xs with
  | nil => exact le_rfl
  | cons x xs ih =>
    rw [← Multiset.cons_coe, Multiset.map_cons, total_cons, List.map_cons, List.count_cons, add_comm]
    refine Nat.add_le_add ih ((asks_entry l index x).trans ?_)
    simp

/-- A level is the first to ask in a new index. -/
theorem total_asks_fresh (hk : Each (Token.Indexed past) G) (hs : Shelved s past)
    (hi : s.mem.indexes.length ≤ i) : total (Token.asks i key) G = 0 := by
  refine total_eq_zero (hk.mono fun t ht => ?_)
  cases t with
  | file j st =>
    cases st with
    | start =>
      obtain ⟨items, ho⟩ := ht
      have hlt := hs.opened _ _ _ ho
      exact if_neg fun h => by omega
    | _ => rfl
  | shortcut l k src =>
    obtain ⟨items, ho⟩ := ht
    have hlt := hs.opened _ _ _ ho
    exact if_neg fun h => by omega
  | _ => rfl

theorem served_fresh (hs : Shelved s past) (hi : s.mem.indexes.length ≤ i) :
    served i key past = 0 := by
  by_contra h
  obtain ⟨p, hp⟩ := List.exists_mem_of_length_pos (Nat.pos_of_ne_zero h)
  obtain ⟨hp, -⟩ := List.mem_filter.mp hp
  obtain ⟨e, he, ht⟩ := List.mem_filterMap.mp hp
  have hlt := hs.taken i p.1 p.2 ⟨e, he, ht⟩
  omega

theorem AskedOnce.step {e : Event copierSig} (h : AskedOnce s past (G + τ))
    (hle : Distinct past → ∀ i key, key ≠ "" → served i key past ≤ 1 →
      total (Token.asks i key) τ' + served i key (e :: past) ≤
        total (Token.asks i key) τ + served i key past) :
    AskedOnce s' (e :: past) (G + τ') := by
  intro hd i key hkey
  have hbefore := h hd.tail i key hkey
  rw [total_add] at hbefore
  have hstep := hle hd.tail i key hkey (by omega)
  rw [total_add]
  omega

/-- A step that asks nothing. -/
theorem AskedOnce.silent {e : Event copierSig} (h : AskedOnce s past (G + τ))
    (htook : ∀ i, took i e = none) (hτ : ∀ i key, total (Token.asks i key) τ' = 0) :
    AskedOnce s' (e :: past) (G + τ') :=
  h.step fun _ i key _ _ => by
    rw [served_cons_none (htook i), hτ]
    omega

theorem FolderRule.asks (h : FolderRule cp o x τ τ') (i : ℕ) (key : String) :
    total (Token.asks i key) τ' = 0 := by
  cases h <;> simp [Token.asks]

theorem StoreRule.asks (h : StoreRule cp o x τ τ') (i : ℕ) (key : String) :
    total (Token.asks i key) τ' = 0 := by
  cases h <;> simp [Token.asks]

theorem RunRule.asks (h : RunRule cp sourceId destParent o x τ τ') (i : ℕ) (key : String) :
    total (Token.asks i key) τ' = 0 := by
  have hr (d : Option String) : total (Token.asks i key) (rootTokens d) = 0 :=
    total_eq_zero (each_rootTokens fun _ => rfl)
  cases h <;> simp [Token.asks, hr]

theorem CallRule.asks {l : Level} (h : CallRule l τ τ') (i : ℕ) (key : String) :
    total (Token.asks i key) τ' = 0 := by
  cases h
  simp [Token.asks]

theorem CopierShift.asks (h : CopierShift cp τ τ') (i : ℕ) (key : String) :
    total (Token.asks i key) τ' ≤ total (Token.asks i key) τ := by
  cases h with
  | forget h => simp
  | batch group => simp [Token.asks]
  | _ => simp [Token.asks]

theorem AskedOnce.file (hr : FileRule cp o x τ τ') (hs : s.Step ok o x s')
    (h : AskedOnce s past (G + τ)) : AskedOnce s' (.did o x :: past) (G + τ') := by
  cases hr with
  | trusted j item =>
    refine h.step fun _ i key _ _ => ?_
    rw [served_cons_take fun _ => rfl]
    simp only [total_singleton, Token.asks]
    omega
  | matched j item =>
    refine h.step fun _ i key _ _ => ?_
    rw [served_cons_take fun _ => rfl]
    simp only [total_singleton, Token.asks]
    omega
  | distrusted j => exact h.step fun _ i key _ _ => by rw [served_cons_none rfl]
  | missing j => exact h.silent (fun _ => rfl) fun _ _ => by simp [Token.asks]
  | _ => exact h.silent (fun _ => rfl) fun _ _ => by simp [Token.asks]

theorem AskedOnce.list (hr : ListRule cp o x τ τ') (hs : s.Step ok o x s')
    (hw : Each (Token.Within past) τ) (hk : Each (Token.Indexed past) (G + τ))
    (hsh : Shelved s past) (h : AskedOnce s past (G + τ)) :
    AskedOnce s' (.did o x :: past) (G + τ') := by
  cases hr with
  | multiLast group out tok files =>
    refine h.silent (fun _ => rfl) fun i key => ?_
    exact total_eq_zero (each_map.mpr fun _ _ => rfl)
  | resolved l index src target data ht =>
    obtain ⟨hl, hsrc, -⟩ := each_singleton.mp hw
    refine h.step fun hd i key _ _ => ?_
    rw [served_cons_none rfl, total_singleton, total_singleton]
    exact Nat.add_le_add_right (asks_target _ _ _ _ ((hd l hl).2 src hsrc)) _
  | index l items index =>
    have hindex : index = s.mem.indexes.length := hs.1
    intro hd i key hkey
    have hbefore := h hd.tail i key hkey
    rw [served_cons_none rfl, total_add]
    by_cases hi : index = i
    · have hlen : s.mem.indexes.length ≤ i := by omega
      have hnodup := (hd.tail l (each_singleton.mp hw)).1
      rw [total_asks_fresh (each_add.mp hk).1 hsh hlen, served_fresh hsh hlen, zero_add, add_zero]
      exact (total_asks_entries l index l.children).trans
        (List.nodup_iff_count_le_one.mp hnodup key)
    · have hzero : total (Token.asks i key) (Multiset.map (Token.entry l index) l.children) = 0 := by
        refine total_eq_zero (each_map.mpr fun src _ => ?_)
        unfold Token.entry
        split_ifs <;> simp [Token.asks, hi]
      rw [hzero]
      rw [total_add] at hbefore
      omega
  | _ => exact h.silent (fun _ => rfl) fun _ _ => by simp [Token.asks]

/-- What is known of the tokens and of the indexes when items ask. -/
def Asking {V : Service} : Invariant V := fun s past G =>
  (Each (Token.Within past) G ∧ Each (Token.Indexed past) G) ∧ Shelved s past

theorem Asking.keeps : Keeps (V := V) cp ok Always Asking :=
  (within_keeps.keeps.both (indexed_keeps.keeps.weaken fun _ => trivial)).both
    (Shelved.keeps.weaken fun _ => trivial)

theorem AskedOnce.keeps : Keeps (V := V) cp ok Asking AskedOnce where
  quiet {o x s s' past G} hr _ _ h := by
    rw [← add_zero G] at h ⊢
    exact h.silent (fun _ => by cases hr <;> rfl) fun _ _ => rfl
  stop _ hr _ _ h := h.silent (fun _ => by cases hr <;> rfl) fun _ _ => by simp [Token.asks]
  file hr hs _ h := h.file hr hs
  folder hr _ _ h := h.silent (fun _ => by cases hr <;> rfl) hr.asks
  list hr hs hj h := h.list hr hs (each_add.mp hj.1.1).2 hj.1.2 hj.2
  store hr _ _ h := h.silent (fun _ => by cases hr <;> rfl) hr.asks
  run hr _ _ h := h.silent (fun _ => by cases hr <;> rfl) hr.asks
  solo _ _ h := by
    intro hd i key hkey
    have hbefore := h hd.tail i key hkey
    rw [served_cons_none rfl]
    simpa [Token.asks] using hbefore
  call hc _ h := h.silent (fun _ => rfl) hc.asks
  shift hc _ h := by
    intro hd i key hkey
    have hbefore := h hd i key hkey
    have hle := hc.asks i key
    rw [total_add] at hbefore ⊢
    omega
  env _ _ h := h

end AskedOnce

end TurboCopy

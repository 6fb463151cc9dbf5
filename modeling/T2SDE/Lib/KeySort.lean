import T2SDE.Lib.StableSort

namespace KeySort

open Text StableSort

section Order

variable (key : Str → Str)

/-- The order of `sort` with a key: lines with the same key are compared as a whole. -/
def KeyLe (a b : Str) : Prop := key a ≠ key b ∧ LineLe (key a) (key b) ∨ key a = key b ∧ LineLe a b

instance : DecidableRel (KeyLe key) := fun _ _ => inferInstanceAs (Decidable (_ ∨ _))

instance : Std.Total (KeyLe key) where
  total a b := by
    by_cases h : key a = key b
    · exact (textLe_total a b).imp (fun hab => .inr ⟨h, hab⟩) fun hba => .inr ⟨h.symm, hba⟩
    · exact (textLe_total (key a) (key b)).imp (fun hab => .inl ⟨h, hab⟩) fun hba =>
        .inl ⟨fun he => h he.symm, hba⟩

variable {key} {a b c : Str}

theorem KeyLe.keys (h : KeyLe key a b) : LineLe (key a) (key b) := by
  rcases h with ⟨-, h⟩ | ⟨h, -⟩
  · exact h
  · rw [h]
    exact (textLe_total (key b) (key b)).elim id id

theorem KeyLe.lines (h : KeyLe key a b) (hkey : key a = key b) : LineLe a b := by
  rcases h with ⟨hne, -⟩ | ⟨-, h⟩
  · exact absurd hkey hne
  · exact h

theorem KeyLe.trans (hab : KeyLe key a b) (hbc : KeyLe key b c) : KeyLe key a c := by
  have hkeys : LineLe (key a) (key c) := textLe_trans hab.keys hbc.keys
  by_cases hac : key a = key c
  · -- all three keys are the same
    have hb : key a = key b := textLe_antisymm hab.keys (by rw [hac]; exact hbc.keys)
    exact .inr ⟨hac, textLe_trans (hab.lines hb) (hbc.lines (hb.symm.trans hac))⟩
  · exact .inl ⟨hac, hkeys⟩

instance : IsTrans Str (KeyLe key) := ⟨fun _ _ _ => KeyLe.trans⟩

end Order

section Uniq

variable (key : Str → Str)

/-- The rest of the lines behind the first one of a group, which has been repeated or not. -/
def uniqAux (first : Str) (repeated : Bool) : List Str → List Str
  | [] => if repeated then [first] else []
  | l :: ls =>
    if key l = key first then uniqAux first true ls
    else (if repeated then [first] else []) ++ uniqAux l false ls

/-- `uniq -d`: the first line of each group of adjacent lines with one key. -/
def uniqD : List Str → List Str
  | [] => []
  | l :: ls => uniqAux key l false ls

variable {key} {first l x : Str} {repeated : Bool} {ls : List Str}

/-- A line is the first one of its group, and not the only one. -/
def Leads (key : Str → Str) (ls : List Str) (x : Str) : Prop :=
  x ∈ ls ∧ (∀ y ∈ ls, key y = key x → LineLe x y) ∧ ∃ y ∈ ls, y ≠ x ∧ key y = key x

theorem leads_other (hkey : key l ≠ key x) : Leads key (l :: ls) x ↔ Leads key ls x := by
  have hne : x ≠ l := fun h => hkey (by rw [h])
  simp [Leads, hkey, hne]

theorem lineLe_refl (a : Str) : LineLe a a := (textLe_total a a).elim id id

/-- The first one of sorted lines leads its group, and nobody else does. -/
theorem leads_cons (hsorted : (l :: ls).Pairwise (KeyLe key)) (hnodup : (l :: ls).Nodup) :
    Leads key (l :: ls) x ↔ x = l ∧ (∃ y ∈ ls, key y = key l) ∨ key x ≠ key l ∧ Leads key ls x := by
  have hl := List.pairwise_cons.mp hsorted
  by_cases hxl : key l = key x
  · constructor
    · rintro ⟨hmem, hleast, y, hy, hyx, hkeys⟩
      have hx : x = l := by
        rcases List.mem_cons.mp hmem with h | hmem
        · exact h
        · exact textLe_antisymm (hleast l List.mem_cons_self hxl) ((hl.1 x hmem).lines hxl)
      subst hx
      exact .inl ⟨rfl, y, (List.mem_cons.mp hy).resolve_left hyx, hkeys⟩
    · rintro (⟨rfl, y, hy, hyl⟩ | ⟨h, -⟩)
      · refine ⟨List.mem_cons_self, fun z hz hzx => ?_, y, List.mem_cons_of_mem x hy, ?_, hyl⟩
        · rcases List.mem_cons.mp hz with rfl | hz
          · exact lineLe_refl z
          · exact (hl.1 z hz).lines hzx.symm
        · rintro rfl
          exact (List.nodup_cons.mp hnodup).1 hy
      · exact absurd hxl.symm h
  · rw [leads_other hxl]
    constructor
    · exact fun h => .inr ⟨fun he => hxl he.symm, h⟩
    · rintro (⟨rfl, -⟩ | ⟨-, h⟩)
      · exact absurd rfl hxl
      · exact h

theorem mem_uniqAux (hsorted : (first :: ls).Pairwise (KeyLe key)) (hnodup : (first :: ls).Nodup) :
    x ∈ uniqAux key first repeated ls ↔
      x = first ∧ (repeated = true ∨ ∃ y ∈ ls, key y = key first) ∨ key x ≠ key first ∧ Leads key ls x := by
  induction ls generalizing first repeated with
  | nil => cases repeated <;> simp [uniqAux, Leads]
  | cons l ls ih =>
    have hfirst := List.pairwise_cons.mp hsorted
    have hl := List.pairwise_cons.mp hfirst.2
    have hnodup' := List.nodup_cons.mp hnodup
    rw [uniqAux]
    by_cases hkey : key l = key first
    · have hsub : (first :: ls).Pairwise (KeyLe key) :=
        List.pairwise_cons.mpr ⟨fun y hy => hfirst.1 y (List.mem_cons_of_mem l hy), hl.2⟩
      have hnodup'' : (first :: ls).Nodup :=
        List.nodup_cons.mpr ⟨fun h => hnodup'.1 (List.mem_cons_of_mem l h), (List.nodup_cons.mp hnodup'.2).2⟩
      have hrepeated : ∃ y ∈ l :: ls, key y = key first := ⟨l, List.mem_cons_self, hkey⟩
      have hleads : key x ≠ key first → (Leads key (l :: ls) x ↔ Leads key ls x) :=
        fun h => leads_other (hkey ▸ h.symm)
      rw [if_pos hkey, ih hsub hnodup'']
      simp only [true_or, and_true, hrepeated, or_true]
      exact or_congr_right (and_congr_right fun h => (hleads h).symm)
    · -- the lines behind have greater keys
      have hgreater : ∀ y ∈ l :: ls, key y ≠ key first := by
        intro y hy heq
        have hly : LineLe (key l) (key y) := by
          rcases List.mem_cons.mp hy with rfl | hy
          · exact lineLe_refl (key y)
          · exact (hl.1 y hy).keys
        exact hkey (textLe_antisymm (heq ▸ hly) (hfirst.1 l List.mem_cons_self).keys)
      have hno : ¬∃ y ∈ l :: ls, key y = key first := fun ⟨y, hy, h⟩ => hgreater y hy h
      have hone : x ∈ (if repeated then [first] else []) ↔ x = first ∧ repeated = true := by
        cases repeated <;> simp
      have hfalse : ∀ p : Prop, (false = true ∨ p) ↔ p := by simp
      rw [if_neg hkey, List.mem_append, ih hfirst.2 hnodup'.2, hfalse, ← leads_cons hfirst.2 hnodup'.2, hone,
        or_iff_left hno]
      exact or_congr_right ⟨fun h => ⟨hgreater x h.1, h⟩, And.right⟩

/-- `uniq -d` of sorted lines gives the least line of each group with several members. -/
theorem mem_uniqD (hsorted : ls.Pairwise (KeyLe key)) (hnodup : ls.Nodup) :
    x ∈ uniqD key ls ↔ Leads key ls x := by
  cases ls with
  | nil => simp [uniqD, Leads]
  | cons l ls =>
    have hfalse : ∀ p : Prop, (false = true ∨ p) ↔ p := by simp
    rw [uniqD, mem_uniqAux hsorted hnodup, hfalse, leads_cons hsorted hnodup]

/-- What `sort` and `uniq -d` leave of some lines. -/
theorem mem_uniqD_sort (hnodup : ls.Nodup) : x ∈ uniqD key (ls.insertionSort (KeyLe key)) ↔
    Leads key ls x := by
  have hperm := List.perm_insertionSort (KeyLe key) ls
  rw [mem_uniqD (List.pairwise_insertionSort (KeyLe key) ls) (hperm.nodup_iff.mpr hnodup)]
  simp only [Leads, hperm.mem_iff]

theorem uniqAux_sublist (key : Str → Str) (first : Str) (repeated : Bool) (ls : List Str) :
    (uniqAux key first repeated ls).Sublist (first :: ls) := by
  induction ls generalizing first repeated with
  | nil => cases repeated <;> simp [uniqAux]
  | cons l ls ih =>
    rw [uniqAux]
    split
    · exact (ih first true).trans ((List.sublist_cons_self l ls).cons_cons first)
    · have hone : (if repeated then [first] else []).Sublist [first] := by cases repeated <;> simp
      exact hone.append (ih l false)

theorem uniqD_sublist (key : Str → Str) (ls : List Str) : (uniqD key ls).Sublist ls := by
  cases ls with
  | nil => exact List.Sublist.slnil
  | cons l ls => exact uniqAux_sublist key l false ls

end Uniq

end KeySort

import Cs241.Paging.Tracing

/-!
# What the pages hold

Beside where the frames are the invariant of this file says that an entry leads to
what its process has written, whether the page is in memory or on disk. The
changes of the view are those of the functions of the unit.
-/
namespace Cs241.Paging

/-- Directories, tables and data are in different frames, a data frame belongs to one entry, and
what an entry leads to is what its process has written. -/
structure Inv (v : View) : Prop where
  dir_held : ∀ {p d}, v.dirs p = some d → v.holder d = some .null ∧ v.owner d = none
  dir_inj : ∀ {p q d}, v.dirs p = some d → v.dirs q = some d → p = q
  table_held : ∀ {t o}, v.owner t = some o → v.holder t = some .null ∨ v.holder t = some .localCopy
  table_dir : ∀ {t p j}, v.owner t = some (p, j) → v.dirs p ≠ none
  data_held : ∀ {f s}, v.holder f = some (.entry s) →
    v.owner s.1 ≠ none ∧ (v.mem.entry s).present ∧ (v.mem.entry s).baseAddr = f
  held_data : ∀ {s}, v.owner s.1 ≠ none → (v.mem.entry s).present →
    v.holder (v.mem.entry s).baseAddr = some (.entry s)
  saved_owned : ∀ {s page}, v.saved s = some page → v.owner s.1 ≠ none
  fresh : ∀ {p}, v.dirs p = none → ∀ a, v.values p a = 0
  linked : ∀ {p d n}, v.dirs p = some d → (v.mem.entry (d, n / 1024)).present →
    v.owner (v.mem.entry (d, n / 1024)).baseAddr = some (p, n / 1024) ∧
    v.Holds ((v.mem.entry (d, n / 1024)).baseAddr, n % 1024) p n
  cached : ∀ {n s}, v.last n = some s →
    v.owner s.1 = some (v.curr, n / 1024) ∧ s.2 = n % 1024 ∧ v.Holds s v.curr n
  coherent : ∀ {d n s}, v.dirs v.curr = some d → (v.mem.entry (d, n / 1024)).present →
    v.last n = some s → s = ((v.mem.entry (d, n / 1024)).baseAddr, n % 1024)

theorem View.Holds.congr {v v' : View} {s : Slot} {p n : ℕ} (h : v.Holds s p n)
    (hc : ∀ off < 4096, v'.content s off = v.content s off) (hv : v'.values = v.values) :
    v'.Holds s p n := by
  intro off hoff
  rw [hc off hoff, hv]
  exact h off hoff

namespace Inv

variable {v v' : View} (hi : Inv v) {a d t p n : ℕ} {s slot : Slot} {e : Entry}

include hi in
theorem traced : Traced (fun _ => True) v := by
  refine ⟨{ hi with used_held := fun _ => trivial, used_saved := fun _ => trivial }, ?_, ?_⟩
  · intro p d j hd hp
    have hj : 1024 * j / 1024 = j := by omega
    have hlinked := (hi.linked (n := 1024 * j) hd (by rwa [hj])).1
    rwa [hj] at hlinked
  · intro n s hs
    obtain ⟨ho, h2, -⟩ := hi.cached hs
    exact ⟨ho, h2⟩

theorem of_traced (h : Traced (fun _ => True) v)
    (table_dir : ∀ {t p j}, v.owner t = some (p, j) → v.dirs p ≠ none)
    (fresh : ∀ {p}, v.dirs p = none → ∀ a, v.values p a = 0)
    (linked : ∀ {p d n}, v.dirs p = some d → (v.mem.entry (d, n / 1024)).present →
      v.Holds ((v.mem.entry (d, n / 1024)).baseAddr, n % 1024) p n)
    (cached : ∀ {n s}, v.last n = some s → v.Holds s v.curr n)
    (coherent : ∀ {d n s}, v.dirs v.curr = some d → (v.mem.entry (d, n / 1024)).present →
      v.last n = some s → s = ((v.mem.entry (d, n / 1024)).baseAddr, n % 1024)) : Inv v :=
  { h.placed with
    table_dir := table_dir
    fresh := fresh
    linked := fun hd hp => ⟨h.linked hd hp, linked hd hp⟩
    cached := fun hs => ⟨(h.cached hs).1, (h.cached hs).2, cached hs⟩
    coherent := coherent }

include hi

theorem of_keeps (hplaced : Placed (fun _ => True) v') (hk : Keeps v v') : Inv v' := by
  obtain ⟨hlast, hcurr, hdirs, hown, hvalues⟩ := hk.rest
  have hholds : ∀ {s p n}, v.owner s.1 ≠ none → v.Holds s p n → v'.Holds s p n :=
    fun hs hh => hh.congr (hk.content hs) hvalues
  apply of_traced (hi.traced.of_keeps hplaced hk)
  case table_dir =>
    intro t p j ho
    rw [hdirs]
    exact hi.table_dir (hown ▸ ho)
  case fresh =>
    intro p hp a
    rw [hvalues]
    exact hi.fresh (hdirs ▸ hp) a
  case linked =>
    intro p d n hd hp
    have hd' := (congrFun hdirs p).symm.trans hd
    obtain ⟨hpresent, hbase⟩ := hk.dir (j := n / 1024) hd'
    obtain ⟨ho, hh⟩ := hi.linked hd' (hpresent ▸ hp)
    rw [hbase]
    exact hholds (by simp [ho]) hh
  case cached =>
    intro n s hs
    obtain ⟨ho, -, hh⟩ := hi.cached (hlast ▸ hs)
    rw [hcurr]
    exact hholds (by simp [ho]) hh
  case coherent =>
    intro d n s hd hp hs
    have hd' : v.dirs v.curr = some d := by rw [← hdirs, ← hcurr, hd]
    obtain ⟨hpresent, hbase⟩ := hk.dir (j := n / 1024) hd'
    rw [hbase]
    exact hi.coherent hd' (hpresent ▸ hp) (hlast ▸ hs)

/-- A page of a new table is one that has not been written. -/
theorem of_located (h : Traced (fun _ => True) v') (hloc : Located a v v' slot)
    (hd : v.dirs v'.curr = some d)
    (horigin : (v.curr = v'.curr ∧ v.last (a / 2 ^ 12) = some slot) ∨
      ((v.mem.entry (d, a / 2 ^ 22)).present = true ∧
        slot = ((v.mem.entry (d, a / 2 ^ 22)).baseAddr, a / 2 ^ 12 % 2 ^ 10)) ∨
      ((v.mem.entry (d, a / 2 ^ 22)).present = false ∧
        ∀ off < 4096, v'.content slot off = v.values v'.curr (4096 * (a / 2 ^ 12) + off))) :
    Inv v' := by
  obtain ⟨hdirs, hvalues⟩ := hloc.rest
  have hbits : a / 2 ^ 12 / 1024 = a / 2 ^ 22 := by omega
  have hholds : ∀ {s p n}, v.owner s.1 ≠ none → v.Holds s p n → v'.Holds s p n :=
    fun hs hh => hh.congr (hloc.content hs) hvalues
  apply of_traced h
  case table_dir =>
    intro t p j ho
    rw [hdirs]
    rcases hloc.owned ho with hold | hcurr
    · exact hi.table_dir hold
    · rw [show p = v'.curr from hcurr, hd]
      simp
  case fresh =>
    intro p hp a
    rw [hvalues]
    exact hi.fresh (hdirs ▸ hp) a
  case linked =>
    intro p d' n hd' hp
    rw [hdirs] at hd'
    obtain ⟨hpresent, hbase⟩ := hloc.dir (j := n / 1024) hd'
    obtain ⟨ho, hh⟩ := hi.linked hd' (hpresent ▸ hp)
    rw [hbase]
    exact hholds (by simp [ho]) hh
  case cached =>
    intro n s hs
    have hold : v.curr = v'.curr ∧ v.last n = some s → v'.Holds s v'.curr n := by
      rintro ⟨hcurr, hl⟩
      obtain ⟨ho, -, hh⟩ := hi.cached hl
      exact hcurr ▸ hholds (by simp [ho]) hh
    rcases hloc.learned hs with hl | ⟨rfl, rfl⟩
    · exact hold hl
    · rcases horigin with hl | ⟨hp, rfl⟩ | ⟨-, hzero⟩
      · exact hold hl
      · rw [← hbits] at hp
        obtain ⟨ho, hh⟩ := hi.linked hd hp
        rw [hbits] at ho hh
        exact hholds (Option.ne_none_iff_exists'.mpr ⟨_, ho⟩) hh
      · intro off hoff
        rw [hvalues]
        exact hzero off hoff
  case coherent =>
    intro d' n s hd' hp hs
    obtain rfl : d = d' := by
      rw [hdirs, hd] at hd'
      exact Option.some.inj hd'
    obtain ⟨hpresent, hbase⟩ := hloc.dir (j := n / 1024) hd
    have hp' := hpresent ▸ hp
    have hold : v.curr = v'.curr ∧ v.last n = some s →
        s = ((v.mem.entry (d, n / 1024)).baseAddr, n % 1024) := fun hl =>
      hi.coherent (hl.1 ▸ hd) hp' hl.2
    rw [hbase]
    rcases hloc.learned hs with hl | ⟨rfl, rfl⟩
    · exact hold hl
    · rw [hbits] at hp' hold ⊢
      rcases horigin with hl | ⟨-, rfl⟩ | ⟨habs, -⟩
      · exact hold hl
      · rfl
      · exact absurd (hp'.symm.trans habs) (by simp)

/-- A new process has not written anything. -/
theorem of_entered (h : Traced (fun _ => True) v') (hnew : v.dirs p = none)
    (he : Entered p d t v v') : Inv v' := by
  obtain ⟨hlast, hcurr, hvalues⟩ := he.rest
  have hold : ∀ {q d'}, v'.dirs q = some d' → (q = p ∧ d' = d) ∨ (q ≠ p ∧ v.dirs q = some d') := by
    intro q d' hq
    rw [he.dirs] at hq
    by_cases hqp : q = p
    · subst hqp
      exact .inl ⟨rfl, by simpa using hq.symm⟩
    · exact .inr ⟨hqp, by simpa [hqp] using hq⟩
  have hholds : ∀ {s p n}, v.owner s.1 ≠ none → v.Holds s p n → v'.Holds s p n :=
    fun hs hh => hh.congr (he.content hs) hvalues
  apply of_traced h
  case table_dir =>
    intro t' q j ho
    rw [he.dirs]
    by_cases hqp : q = p
    · simp [hqp]
    · rw [Function.update_of_ne hqp]
      by_cases ht : t' = t
      · subst ht
        rw [he.owner, Function.update_self] at ho
        exact absurd (congrArg Prod.fst (Option.some.inj ho)).symm hqp
      · rw [he.owner, Function.update_of_ne ht] at ho
        exact hi.table_dir ho
  case fresh =>
    intro q hq a
    have hqp : q ≠ p := by
      rintro rfl
      simp [he.dirs] at hq
    rw [he.dirs, Function.update_of_ne hqp] at hq
    rw [hvalues]
    exact hi.fresh hq a
  case linked =>
    intro q d' n hq hp
    rcases hold hq with ⟨rfl, rfl⟩ | ⟨-, hq⟩
    · rw [he.alone hp, he.first]
      intro off hoff
      rw [he.blank _ off hoff, hvalues]
      exact (hi.fresh hnew _).symm
    · obtain ⟨hpresent, hbase⟩ := he.dir (j := n / 1024) hq
      obtain ⟨ho, hh⟩ := hi.linked hq (hpresent ▸ hp)
      rw [hbase]
      exact hholds (by simp [ho]) hh
  case cached =>
    intro n s hs
    obtain ⟨ho, -, hh⟩ := hi.cached (hlast ▸ hs)
    rw [hcurr]
    exact hholds (by simp [ho]) hh
  case coherent =>
    intro d' n s hq hp hs
    rw [hlast] at hs
    have hlive := hi.table_dir (hi.cached hs).1
    rcases hold hq with ⟨hc, -⟩ | ⟨-, hq⟩
    · exact absurd ((congrArg v.dirs (hcurr.symm.trans hc)).trans hnew) hlive
    · obtain ⟨hpresent, hbase⟩ := he.dir (j := n / 1024) hq
      rw [hbase]
      exact hi.coherent (hcurr ▸ hq) (hpresent ▸ hp) hs

/-- The other bits of an entry change. -/
theorem touch (hp : e.present = (v.mem.entry s).present)
    (hb : e.baseAddr = (v.mem.entry s).baseAddr) : Inv { v with mem := v.mem.setEntry s e } := by
  obtain ⟨hplaced, hkeeps⟩ := hi.traced.placed.touch hp hb
  exact hi.of_keeps hplaced hkeeps

/-- The current process writes through a cached entry. -/
theorem store {bytes : List UInt8} {o : ℕ} {values : ℕ → ℕ → UInt8} (hl : v.last n = some s)
    (hp : (v.mem.entry s).present) (ho : bytes.length + o ≤ 4096)
    (hv : ∀ q a, values q a = if v.curr = q ∧ 4096 * n + o ≤ a then
      bytes.getD (a - (4096 * n + o)) (v.values q a) else v.values q a) :
    Inv (v.written s o bytes values) := by
  obtain ⟨hown, hidx, hhold⟩ := hi.cached hl
  have hs : v.owner s.1 ≠ none := by simp [hown]
  -- The page that is written, through whatever entry it is seen.
  have hsame : (v.written s o bytes values).Holds s v.curr n := by
    intro off hoff
    have hold := hhold off hoff
    rw [View.content_of_present hp] at hold
    rw [View.content_of_present (v := v.written s o bytes values) hp]
    simp only [View.written, Memory.entry_write, Memory.page_write _ _ _ _ hoff ho, hv, true_and,
      Nat.add_le_add_iff_left]
    rw [hold, show 4096 * n + off - (4096 * n + o) = off - o by omega]
  have hother : ∀ {s' q m}, v.owner s'.1 = some (q, m / 1024) → s'.2 = m % 1024 →
      ¬ (q = v.curr ∧ m = n) → v.Holds s' q m → (v.written s o bytes values).Holds s' q m := by
    intro s' q m ho' hidx' hne hh off hoff
    have hss : s' ≠ s := by
      rintro rfl
      rw [hown] at ho'
      obtain ⟨hq, hm⟩ := Prod.mk.inj (Option.some.inj ho')
      exact hne ⟨hq.symm, by omega⟩
    have hvalue : values q (4096 * m + off) = v.values q (4096 * m + off) := by
      rw [hv]
      split_ifs with hq
      · have hmn : m ≠ n := fun h => hne ⟨hq.1.symm, h⟩
        have hlen : bytes.length ≤ 4096 * m + off - (4096 * n + o) := by omega
        simp [List.getD, List.getElem?_eq_none hlen]
      · rfl
    refine Eq.trans ?_ ((hh off hoff).trans hvalue.symm)
    have hs' : v.owner s'.1 ≠ none := by simp [ho']
    exact hi.traced.placed.content_written bytes o values hs hp ho hs' hss off hoff
  have htraced : Traced (fun _ => True) (v.written s o bytes values) :=
    ⟨{ hi.traced.placed with }, hi.traced.linked, hi.traced.cached⟩
  apply of_traced htraced
  case table_dir => exact hi.table_dir
  case fresh =>
    intro q hq a
    have hne : v.curr ≠ q := by
      rintro rfl
      exact hi.table_dir hown hq
    exact (hv q a).trans ((if_neg fun h => hne h.1).trans (hi.fresh hq a))
  case linked =>
    intro q d m hd hp'
    obtain ⟨ho', hh⟩ := hi.linked hd hp'
    by_cases hqm : q = v.curr ∧ m = n
    · obtain ⟨rfl, rfl⟩ := hqm
      have hcoh := hi.coherent hd hp' hl
      exact hcoh ▸ hsame
    · exact hother ho' rfl hqm hh
  case cached =>
    intro m s' hs'
    obtain ⟨ho', hidx', hh⟩ := hi.cached hs'
    by_cases hmn : m = n
    · subst hmn
      obtain rfl := Option.some.inj (hl.symm.trans hs')
      exact hsame
    · exact hother ho' hidx' (fun h => hmn h.2) hh
  case coherent => exact hi.coherent

end Inv

end Cs241.Paging

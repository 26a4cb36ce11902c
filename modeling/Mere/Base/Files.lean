import Mere.Base.Interrupt

/-!
# Programs over files

A file system holds for each file its content, where there is one; what a content is can depend on
the file. A program over it (`Prog`) writes and removes whole files.
-/

namespace Mere

open List Function

variable {F : Type} {C : F → Type}

/-! ## Files and writes -/

abbrev Files (C : F → Type) := (file : F) → Option (C file)

structure Put (C : F → Type) where
  file : F
  content : Option (C file)

namespace Files

variable [DecidableEq F] {s : Files C} {w : Put C} {ws vs : List (Put C)} {file : F}

def put (s : Files C) (w : Put C) : Files C := Function.update s w.file w.content

def puts (s : Files C) (ws : List (Put C)) : Files C := ws.foldl put s

theorem put_self : s.put w w.file = w.content := by
  exact update_self _ _ _

variable {content : Option (C file)}

@[simp] theorem put_same : s.put ⟨file, content⟩ file = content :=
  put_self

theorem put_other (h : file ≠ w.file) : s.put w file = s file := by
  exact update_of_ne h _ _

@[simp] theorem puts_nil : s.puts [] = s := rfl

@[simp] theorem puts_cons : s.puts (w :: ws) = (s.put w).puts ws := rfl

theorem puts_append : s.puts (ws ++ vs) = (s.puts ws).puts vs := foldl_append

theorem puts_other (h : ∀ w ∈ ws, w.file ≠ file) : s.puts ws file = s file := by
  induction ws generalizing s with
  | nil => rfl
  | cons w ws ih =>
    rw [puts_cons, ih fun w' hw' => h w' (mem_cons_of_mem _ hw')]
    exact put_other (h w mem_cons_self).symm

theorem puts_of_mem (hmem : ⟨file, content⟩ ∈ ws)
    (hall : ∀ content', (⟨file, content'⟩ : Put C) ∈ ws → content' = content) :
    s.puts ws file = content := by
  induction ws using List.reverseRecOn with
  | nil => exact absurd hmem not_mem_nil
  | append_singleton ws w ih =>
    rw [puts_append, puts_cons, puts_nil]
    by_cases hfile : file = w.file
    · subst hfile
      rw [put_self]
      exact hall w.content (mem_append_right _ mem_cons_self)
    · rw [put_other hfile]
      rcases mem_append.mp hmem with hmem | hmem
      · exact ih hmem fun content' h => hall content' (mem_append_left _ h)
      · rw [mem_singleton] at hmem
        exact absurd (congrArg Put.file hmem) hfile

theorem load_puts {A : Type} {save : A → Put C} (load : Files C → Option A) {found : A → Bool}
    (hself : ∀ (s : Files C) a, found a = true → load (s.put (save a)) = some a)
    (hother : ∀ (s : Files C) a, found a = false → load (s.put (save a)) = load s) {l : List A} :
    load (s.puts (l.map save)) = (l.reverse.find? found).or (load s) := by
  induction l using List.reverseRecOn with
  | nil => rfl
  | append_singleton l a ih =>
    rw [map_append, puts_append, reverse_append]
    change load ((s.puts (l.map save)).put (save a)) = ((a :: l.reverse).find? found).or (load s)
    rw [find?_cons]
    cases h : found a with
    | true => exact hself _ a h
    | false => exact (hother _ a h).trans ih

def trail (s : Files C) : List (Put C) → List (Files C)
  | [] => []
  | w :: ws => s.put w :: trail (s.put w) ws

theorem trail_append : s.trail (ws ++ vs) = s.trail ws ++ (s.puts ws).trail vs := by
  induction ws generalizing s with
  | nil => rfl
  | cons w ws ih =>
    change s.put w :: (s.put w).trail (ws ++ vs) = _
    rw [ih]
    rfl

theorem headD_trail : (s.trail ws).reverse.headD s = s.puts ws := by
  induction ws using List.reverseRecOn with
  | nil => rfl
  | append_singleton ws w _ =>
    rw [trail_append, reverse_append, puts_append]
    rfl

theorem trail_take (k : Nat) : (s.trail ws).take k = s.trail (ws.take k) := by
  induction ws generalizing s k with
  | nil => rw [take_nil]; exact take_nil
  | cons w ws ih =>
    cases k with
    | zero => rfl
    | succ k => exact congrArg (s.put w :: ·) (ih k)

end Files

/-! ## What a program does -/

namespace Prog

variable {E A B : Type}

def cut {S : Type} (p : Prog S E A) (s : S) (k : Nat) : S :=
  ((p s).1.reverse.take k).reverse.headD s

/-- Each in turn, to the first that fails. -/
def each {S : Type} (f : A → Prog S E B) : List A → Prog S E (List B)
  | [] => pure []
  | a :: as => do
    let b ← f a
    let bs ← each f as
    return b :: bs

def forEach {S : Type} (f : A → Prog S E Unit) : List A → Prog S E Unit
  | [] => pure ()
  | a :: as => do
    f a
    forEach f as

def when {S : Type} (condition : Prop) [Decidable condition] (p : Prog S E Unit) :
    Prog S E Unit :=
  if condition then p else pure ()

def ofExcept {S : Type} : Except E A → Prog S E A
  | .ok a => pure a
  | .error e => fail e

variable [DecidableEq F]

def put (w : Put C) : Prog (Files C) E Unit := write fun s => s.put w

/-- From `s` the program makes these writes, in this order, and ends so. -/
def Does (p : Prog (Files C) E A) (s : Files C) (ws : List (Put C)) (r : Except E A) : Prop :=
  p s = ((s.trail ws).reverse, r)

namespace Does

variable {p : Prog (Files C) E A} {q : A → Prog (Files C) E B} {s : Files C}
  {ws vs : List (Put C)} {r : Except E A} {r' : Except E B} {a : A} {e : E}

theorem answer (h : p.Does s ws r) : p.answer s = r := congrArg Prod.snd h

theorem final (h : p.Does s ws r) : p.final s = s.puts ws := by
  have hwritten : (p s).1 = (s.trail ws).reverse := congrArg Prod.fst h
  rw [Prog.final, hwritten, Files.headD_trail]

theorem cut (h : p.Does s ws r) (k : Nat) : p.cut s k = s.puts (ws.take k) := by
  have hwritten : (p s).1 = (s.trail ws).reverse := congrArg Prod.fst h
  rw [Prog.cut, hwritten, reverse_reverse, Files.trail_take, Files.headD_trail]

/-! ### One step -/

theorem pure : (Pure.pure a : Prog (Files C) E A).Does s [] (.ok a) := rfl

theorem fail : (Prog.fail e : Prog (Files C) E A).Does s [] (.error e) := rfl

theorem put {w : Put C} : (Prog.put w : Prog (Files C) E Unit).Does s [w] (.ok ()) := rfl

variable {condition : Prop} {f : A → Prog (Files C) E B} {writes : A → List (Put C)} {l : List A}

theorem when {p : Prog (Files C) E Unit} [Decidable condition]
    (h : condition → p.Does s ws (.ok ())) :
    (Prog.when condition p).Does s (if condition then ws else []) (.ok ()) := by
  unfold Prog.when
  by_cases hc : condition
  · rw [if_pos hc, if_pos hc]
    exact h hc
  · rw [if_neg hc, if_neg hc]
    exact pure

theorem when_true {p : Prog (Files C) E Unit} [Decidable condition]
    (hc : condition) (h : p.Does s ws (.ok ())) : (Prog.when condition p).Does s ws (.ok ()) := by
  rw [Prog.when, if_pos hc]
  exact h

/-! ### One after the other -/

theorem bind (h : p.Does s ws (.ok a)) (h' : (q a).Does (s.puts ws) vs r') :
    (p >>= q).Does s (ws ++ vs) r' := by
  unfold Does at h h' ⊢
  rw [bind_apply h, Files.headD_trail, h', Files.trail_append, reverse_append]

theorem bind_error (h : p.Does s ws (.error e)) : (p >>= q).Does s ws (.error e) :=
  bind_apply_error h

theorem read {q : Files C → Prog (Files C) E B} (h : (q s).Does s vs r') :
    (Prog.read >>= q).Does s vs r' := by
  unfold Does
  rw [read_bind]
  exact h

theorem check {q : A → Prog (Files C) E B} (hr : r = .ok a) (h : (q a).Does s vs r') :
    (Prog.ofExcept r >>= q).Does s vs r' := by
  subst hr
  exact bind pure h

theorem check_error {q : A → Prog (Files C) E B} (hr : r = .error e) :
    (Prog.ofExcept r >>= q).Does s [] (.error e) := by
  subst hr
  exact bind_error fail

theorem each_cons {as : List A} {b : B} {r : Except E (List B)}
    (h : (f a).Does s ws (.ok b)) (h' : (Prog.each f as).Does (s.puts ws) vs r) :
    (Prog.each f (a :: as)).Does s (ws ++ vs) (r.map (b :: ·)) := by
  cases r with
  | error e => exact bind h (bind_error h')
  | ok bs =>
    rw [← append_nil vs]
    exact bind h (bind h' pure)

/-- One whose writes and whose end are known for each element, from where the ones before it
leave the files. -/
theorem each {result : A → B}
    (h : ∀ before a after, l = before ++ a :: after →
      (f a).Does (s.puts (before.flatMap writes)) (writes a) (.ok (result a))) :
    (Prog.each f l).Does s (l.flatMap writes) (.ok (l.map result)) := by
  induction l generalizing s with
  | nil => exact pure
  | cons a l ih =>
    refine each_cons (h [] a l rfl) (ih fun before b after hl => ?_)
    rw [← Files.puts_append]
    exact h (a :: before) b after (congrArg (a :: ·) hl)

theorem forEach {f : A → Prog (Files C) E Unit}
    (h : ∀ s, ∀ a ∈ l, (f a).Does s (writes a) (.ok ())) :
    (Prog.forEach f l).Does s (l.flatMap writes) (.ok ()) := by
  induction l generalizing s with
  | nil => exact pure
  | cons a l ih =>
    exact bind (h s a mem_cons_self) (ih fun s b hb => h s b (mem_cons_of_mem _ hb))

end Does

end Prog

end Mere

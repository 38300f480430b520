import PiOS.Proof.Vsprintf

namespace PiOS.Proof.FormatEnd
open Kernel Heap Print Vsprintf Transition

def turnReads (c : Printer) : List Nat :=
  c.str :: if c.current = ascii '%' then
    (c.str + 1) :: if c.next.current = ascii 'l' then [c.str + 2] else []
  else []

def formatReads (limit : Nat) : Nat → Printer → List Nat
  | 0, _ => []
  | turns + 1, c =>
    if c.current ≠ 0 then
      turnReads c ++ match c.turn limit with
        | .ok c' => formatReads limit turns c'
        | .error _ => []
    else
      [c.str]

def stride (mark following : Byte) : Nat :=
  if mark = ascii '%' then
    if following = ascii 'l' then 3
    else if following ∈ [ascii 'd', ascii 'i', ascii 'u', ascii 'x', ascii 's', ascii 'c'] then 2
    else 1
  else 1

def overruns : List Byte → Bool
  | [] => false
  | mark :: text =>
    if mark = ascii '%' then
      match text with
      | [] => false
      | following :: rest =>
        if following = ascii 'l' then
          match rest with
          | [] => true
          | _ :: rest => overruns rest
        else if following ∈ [ascii 'd', ascii 'i', ascii 'u', ascii 'x', ascii 's', ascii 'c'] then overruns rest
        else overruns (following :: rest)
    else overruns text

section Turn

variable {limit : Nat} {c c' : Printer}

theorem put_str {text behind : List Byte} (printed : c.put limit text behind = .ok c') : c'.str = c.str := by
  rw [put_ok printed]

theorem putString_str {sParam : Nat} (printed : c.putString limit sParam = .ok c') : c'.str = c.str := by
  obtain ⟨bytes, copied, rest⟩ := bind_eq_ok.mp printed
  rw [← Except.ok.inj rest]

theorem turn_str (printed : c.turn limit = .ok c') : c'.str = c.str + stride c.current c.next.current := by
  unfold Printer.turn at printed
  unfold stride
  split at printed
  · rename_i mark
    rw [if_pos mark]
    unfold Printer.directive at printed
    simp only at printed
    split at printed
    · rename_i letter
      rw [put_str printed]
      rcases letter with letter | letter <;> rw [letter] <;> rfl
    split at printed
    · rename_i letter
      rw [put_str printed, letter]
      rfl
    split at printed
    · rename_i letter
      rw [put_str printed, letter]
      rfl
    split at printed
    · rename_i letter
      rw [putString_str printed, letter]
      rfl
    split at printed
    · rename_i letter
      rw [put_str printed, letter]
      rfl
    split at printed
    · rename_i letter
      rw [letter]
      unfold Printer.directiveLong at printed
      simp only at printed
      split at printed
      · rw [put_str printed]
        rfl
      · rw [put_str printed]
        rfl
    · rename_i int u x s char long
      rw [put_str printed, if_neg long, if_neg]
      · rfl
      · simp only [List.mem_cons, List.not_mem_nil, or_false]
        tauto
  · rename_i plain
    rw [if_neg plain, put_str printed]
    rfl

end Turn

theorem stride_pos (mark following : Byte) : 0 < stride mark following := by
  unfold stride
  split
  · split
    · decide
    · split <;> decide
  · decide

section Overruns

variable {mark following : Byte} {text : List Byte}

theorem overruns_plain (plain : mark ≠ ascii '%') (text : List Byte) : overruns (mark :: text) = overruns text := by
  rw [overruns.eq_def]
  simp only [if_neg plain]

theorem overruns_letter (letter : following ∈ [ascii 'd', ascii 'i', ascii 'u', ascii 'x', ascii 's', ascii 'c'])
    (text : List Byte) : overruns (ascii '%' :: following :: text) = overruns text := by
  have other : following ≠ ascii 'l' := by
    rintro rfl
    revert letter
    decide
  rw [overruns.eq_def]
  simp only [if_neg other, if_pos letter, if_true]

theorem overruns_unknown (long : following ≠ ascii 'l')
    (letter : following ∉ [ascii 'd', ascii 'i', ascii 'u', ascii 'x', ascii 's', ascii 'c']) (text : List Byte) :
    overruns (ascii '%' :: following :: text) = overruns (following :: text) := by
  conv_lhs => rw [overruns.eq_def]
  simp only [if_neg long, if_neg letter, if_true]

theorem overruns_cons (mark : Byte) (text : List Byte) :
    (stride mark (text.headD 0) = text.length + 2 ∧ overruns (mark :: text) = true) ∨
    (stride mark (text.headD 0) ≤ text.length + 1 ∧
      overruns (mark :: text) = overruns ((mark :: text).drop (stride mark (text.headD 0)))) := by
  by_cases percent : mark = ascii '%'
  · subst percent
    cases text with
    | nil => exact Or.inr ⟨by decide, rfl⟩
    | cons following rest =>
      rw [List.headD_cons, List.length_cons]
      by_cases long : following = ascii 'l'
      · subst long
        cases rest with
        | nil => exact Or.inl ⟨rfl, rfl⟩
        | cons b rest => exact Or.inr ⟨Nat.le_add_left 3 rest.length, rfl⟩
      · by_cases letter : following ∈ [ascii 'd', ascii 'i', ascii 'u', ascii 'x', ascii 's', ascii 'c']
        · have two : stride (ascii '%') following = 2 := by
            rw [stride, if_pos rfl, if_neg long, if_pos letter]
          rw [two]
          exact Or.inr ⟨Nat.le_add_left 2 _, overruns_letter letter rest⟩
        · have one : stride (ascii '%') following = 1 := by
            rw [stride, if_pos rfl, if_neg long, if_neg letter]
          rw [one]
          exact Or.inr ⟨Nat.le_add_left 1 _, overruns_unknown long letter rest⟩
  · have one : stride mark (text.headD 0) = 1 := by rw [stride, if_neg percent]
    rw [one]
    exact Or.inr ⟨Nat.le_add_left 1 _, overruns_plain percent text⟩

def longsBack : List Byte → Nat
  | l :: mark :: text => if l = ascii 'l' ∧ mark = ascii '%' then longsBack text + 1 else 0
  | _ => 0

def longs (text : List Byte) : Nat := longsBack text.reverse

theorem overruns_long (text : List Byte) : overruns (text ++ [ascii '%', ascii 'l']) = !overruns text := by
  fun_induction overruns text with
  | case1 => rfl
  | case2 => rfl
  | case3 => rfl
  | case4 b rest ih => exact ih
  | case5 following rest long letter ih => exact (overruns_letter letter _).trans ih
  | case6 following rest long letter ih => exact (overruns_unknown long letter _).trans ih
  | case7 mark text plain ih => exact (overruns_plain plain _).trans ih

theorem overruns_ends {text : List Byte} (overrun : overruns text = true) :
    ∃ front, text = front ++ [ascii '%', ascii 'l'] := by
  fun_induction overruns text with
  | case1 => cases overrun
  | case2 => cases overrun
  | case3 => exact ⟨[], rfl⟩
  | case4 b rest ih =>
    obtain ⟨front, rfl⟩ := ih overrun
    exact ⟨ascii '%' :: ascii 'l' :: b :: front, rfl⟩
  | case5 following rest long letter ih =>
    obtain ⟨front, rfl⟩ := ih overrun
    exact ⟨ascii '%' :: following :: front, rfl⟩
  | case6 following rest long letter ih =>
    obtain ⟨front, same⟩ := ih overrun
    exact ⟨ascii '%' :: front, congrArg (ascii '%' :: ·) same⟩
  | case7 mark text plain ih =>
    obtain ⟨front, rfl⟩ := ih overrun
    exact ⟨mark :: front, rfl⟩

theorem overruns_back (back : List Byte) : overruns back.reverse = true ↔ Odd (longsBack back) := by
  fun_induction longsBack back with
  | case1 l mark text long ih =>
    obtain ⟨rfl, rfl⟩ := long
    have shape : (ascii 'l' :: ascii '%' :: text).reverse = text.reverse ++ [ascii '%', ascii 'l'] := by simp
    rw [shape, overruns_long, Nat.odd_add_one, ← ih, Bool.not_eq_true', Bool.not_eq_true]
  | case2 l mark text other =>
    have never : ¬ Odd 0 := by decide
    refine iff_of_false (fun overrun => other ?_) never
    obtain ⟨front, shape⟩ := overruns_ends overrun
    have back := congrArg List.reverse shape
    simp only [List.reverse_reverse, List.reverse_append, List.reverse_cons, List.reverse_nil, List.nil_append,
      List.cons_append, List.cons.injEq] at back
    exact ⟨back.1, back.2.1⟩
  | case3 back short =>
    have never : ¬ Odd 0 := by decide
    refine iff_of_false (fun overrun => ?_) never
    obtain ⟨front, shape⟩ := overruns_ends overrun
    have back := congrArg List.reverse shape
    rw [List.reverse_reverse, List.reverse_append] at back
    exact short _ _ _ back

theorem overruns_iff (text : List Byte) : overruns text = true ↔ Odd (longs text) := by
  rw [longs, ← overruns_back, List.reverse_reverse]

end Overruns

section Run

variable {start limit : Nat} {c c' : Printer} {mark : Byte} {text : List Byte}

section

variable (held : Holds c.bytes start limit c.str (mark :: text ++ [0]))
include held

theorem turn_looks : c.current = mark ∧ c.next.current = text.headD 0 := by
  refine ⟨held.load, ?_⟩
  cases text with
  | nil | cons => exact held.tail.load

theorem turn_kept (low : start ≤ c.buff)
    (turned : c.turn limit = .ok c') (inside : stride mark (text.headD 0) ≤ text.length + 1) :
    Holds c'.bytes start limit c'.str ((mark :: text).drop (stride mark (text.headD 0)) ++ [0]) ∧ start ≤ c'.buff := by
  obtain ⟨current, following⟩ := turn_looks held
  have same : ∀ x, x < start ∨ limit ≤ x → c'.bytes x = c.bytes x :=
    fun x outside => (turn_extends turned).kept x (by omega)
  rw [turn_str turned, current, following]
  refine ⟨?_, low.trans (turn_extends turned).later⟩
  rw [← List.take_append_drop (stride mark (text.headD 0)) (mark :: text), List.append_assoc] at held
  have later := (held.append.2).kept same
  rw [List.length_take_of_le inside] at later
  exact later

theorem turnReads_le : ∀ a ∈ turnReads c, a ≤ c.str + (text.length + 1) := by
  obtain ⟨current, following⟩ := turn_looks held
  intro a read
  unfold turnReads at read
  rw [current, following] at read
  have second : text.headD 0 = ascii 'l' → 0 < text.length := by
    intro long
    cases text with
    | nil => cases long
    | cons b text => exact Nat.succ_pos _
  split at read
  · split at read
    · rename_i long
      have longer := second long
      simp only [List.mem_cons, List.not_mem_nil, or_false] at read
      omega
    · simp only [List.mem_cons, List.not_mem_nil, or_false] at read
      omega
  · simp only [List.mem_cons, List.not_mem_nil, or_false] at read
    omega

end

theorem turnReads_length (c : Printer) : (turnReads c).length ≤ 3 := by
  unfold turnReads
  split
  · split <;> simp
  · simp

theorem reads_inside (turns : Nat) (free : 0 ∉ text) (held : Holds c.bytes start limit c.str (text ++ [0]))
    (low : start ≤ c.buff) (ends : overruns text = false) : (∀ a ∈ formatReads limit turns c, a ≤ c.str + text.length) ∧
      (formatReads limit turns c).length ≤ 3 * text.length + 1 ∧
      ∀ c', Printer.loop limit turns c = .ok c' → c'.str = c.str + text.length := by
  induction turns generalizing c text with
  | zero => exact ⟨by simp [formatReads], by simp [formatReads], fun _ printed => by cases printed⟩
  | succ turns ih =>
    unfold formatReads Printer.loop
    cases text with
    | nil =>
      have zero : c.current = 0 := held.load
      rw [zero, if_neg (not_not.mpr rfl), if_neg (not_not.mpr rfl)]
      exact ⟨by simp, by simp, fun c' printed => put_str printed⟩
    | cons mark text =>
      obtain ⟨current, following⟩ := turn_looks held
      have nonzero : c.current ≠ 0 := by
        rw [current]
        exact fun zero => free (zero ▸ List.mem_cons_self)
      have reads := turnReads_le held
      have few := turnReads_length c
      rw [if_pos nonzero, if_pos nonzero, List.length_cons]
      cases turned : c.turn limit with
      | error stop =>
        refine ⟨?_, ?_, fun c' printed => by cases printed⟩
        · simpa using reads
        · rw [List.append_nil]
          omega
      | ok d =>
        rcases overruns_cons mark text with ⟨-, overrun⟩ | ⟨inside, rest⟩
        · rw [overrun] at ends
          cases ends
        · obtain ⟨later, low'⟩ := turn_kept held low turned inside
          have position := turn_str turned
          rw [current, following] at position
          have positive := stride_pos mark (text.headD 0)
          obtain ⟨within, bounded, stops⟩ :=
            ih (fun zero => free (List.mem_of_mem_drop zero)) later low' (rest ▸ ends)
          rw [List.length_drop, List.length_cons] at within bounded stops
          refine ⟨?_, ?_, ?_⟩
          · intro a member
            rcases List.mem_append.mp member with now | then'
            · exact reads a now
            · have bound := within a then'
              omega
          · rw [List.length_append]
            simp only
            omega
          · intro c' printed
            rw [stops c' printed]
            omega

theorem looks_first {turns : Nat} (printed : Printer.loop limit turns c = .ok c') :
    c.str ∈ formatReads limit turns c := by
  cases turns with
  | zero => cases printed
  | succ turns =>
    unfold formatReads
    split
    · exact List.mem_append_left _ List.mem_cons_self
    · exact List.mem_singleton_self _

theorem reads_outside (turns : Nat) (free : 0 ∉ text) (held : Holds c.bytes start limit c.str (text ++ [0]))
    (low : start ≤ c.buff) (overrun : overruns text = true) (printed : Printer.loop limit turns c = .ok c') :
    c.str + text.length + 1 ∈ formatReads limit turns c := by
  induction turns generalizing c text with
  | zero => cases printed
  | succ turns ih =>
    unfold formatReads
    unfold Printer.loop at printed
    cases text with
    | nil => cases overrun
    | cons mark text =>
      obtain ⟨current, following⟩ := turn_looks held
      have nonzero : c.current ≠ 0 := by
        rw [current]
        exact fun zero => free (zero ▸ List.mem_cons_self)
      rw [if_pos nonzero] at printed ⊢
      obtain ⟨d, turned, rest⟩ := bind_eq_ok.mp printed
      have position := turn_str turned
      rw [current, following] at position
      rw [turned]
      apply List.mem_append_right
      simp only
      rcases overruns_cons mark text with ⟨past, -⟩ | ⟨inside, same⟩
      · have found := looks_first rest
        rw [position, past] at found
        exact found
      · obtain ⟨later, low'⟩ := turn_kept held low turned inside
        have found := ih (fun zero => free (List.mem_of_mem_drop zero)) later low' (same ▸ overrun) rest
        rw [List.length_drop, List.length_cons, position] at found
        rw [List.length_cons]
        convert found using 1
        omega

end Run

/-- `vsprintf` stays in its format: it looks at no character behind the zero, it comes to an end, and the
pointer is then at the zero. -/
structure StaysInside (limit : Nat) (c : Printer) (text : List Byte) : Prop where
  reads : ∀ turns, ∀ a ∈ formatReads limit turns c, a ≤ c.str + text.length
  bounded : ∀ turns, (formatReads limit turns c).length ≤ 3 * text.length + 1
  stops : ∀ c', c.vsprintf limit = .ok c' → c'.str = c.str + text.length

theorem stays_inside_iff (limit : Nat) (c : Printer) (text : List Byte) (free : 0 ∉ text)
    (held : Holds c.bytes c.buff limit c.str (text ++ [0])) :
    (¬ Odd (longs text) → StaysInside limit c text) ∧
    ((∃ c', c.vsprintf limit = .ok c') → (StaysInside limit c text ↔ ¬ Odd (longs text))) := by
  have stays : ¬ Odd (longs text) → StaysInside limit c text := by
    intro even
    rw [← overruns_iff, Bool.not_eq_true] at even
    have inside := fun turns => reads_inside turns free held le_rfl even
    exact ⟨fun turns => (inside turns).1, fun turns => (inside turns).2.1, (inside 0x10000).2.2⟩
  refine ⟨stays, fun printed => ⟨?_, stays⟩⟩
  rintro inside odd
  obtain ⟨c', printed⟩ := printed
  have outside := inside.reads 0x10000 _ (reads_outside 0x10000 free held le_rfl ((overruns_iff text).mpr odd) printed)
  omega

def truncated (format behind : List Byte) : Printer where
  bytes := HeapBytes.write (fun _ => 0) 0x100 (format ++ [0] ++ behind)
  buff := 0x1000
  str := 0x100
  vlist := 0x200

theorem stays_inside_iff_twice :
    StaysInside 0x1100 (truncated ("%l%l".toList.map ascii) [ascii 'x']) ("%l%l".toList.map ascii) :=
  (stays_inside_iff 0x1100 _ _ (by decide) ⟨by decide +kernel, by decide, by decide⟩).1 (by decide)

theorem long_passes_zero :
    0x103 ∈ formatReads 0x1100 2 (truncated ("%l".toList.map ascii) ("key".toList.map ascii)) ∧
    (((truncated ("%l".toList.map ascii) ("key".toList.map ascii)).vsprintf 0x1100).toOption.map
      fun c => (c.str, c.bytes.read 0x1000 5)) = some (0x106, "Ekey".toList.map ascii ++ [0]) ∧
    ¬ StaysInside 0x1100 (truncated ("%l".toList.map ascii) ("key".toList.map ascii)) ("%l".toList.map ascii) := by
  have read : 0x103 ∈ formatReads 0x1100 2 (truncated ("%l".toList.map ascii) ("key".toList.map ascii)) := by
    decide +kernel
  refine ⟨read, by decide +kernel, fun stays => ?_⟩
  have bound := stays.reads 2 _ read
  revert bound
  decide

end PiOS.Proof.FormatEnd

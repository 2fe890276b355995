/-
Phrases and the ways to line their words up.

A word that is typed as one and read as several has positions at one start that span
more or fewer words.  The words of a phrase line up when one position of each can be
chosen so that every word starts where the one before it ends, with the gap their
offsets have in the query (`LinedUp`).  The search takes, at every word behind the
first, the first position at the start it wants, and does not come back to it: where a
word in the middle has one position at every start that is reached, nothing is missed.
-/
import Riets.ShardStats

open List

namespace QueryExecutor

variable {F : Type} (e : QueryExecutor F)

end QueryExecutor

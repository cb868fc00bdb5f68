/-!
# Powers

Powers of natural numbers are those of the core library, whichever others are in scope.
-/

attribute [instance (high)] instPowNat

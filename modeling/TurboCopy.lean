import TurboCopy.Threads.Protocol
import TurboCopy.Copier.Recognition
import TurboCopy.Copier.Budget
import TurboCopy.Copier.Batches
import TurboCopy.Copier.Clearing
import TurboCopy.Copier.DryRun
import TurboCopy.Copier.Resolved
import TurboCopy.Copier.CompleteFolders
import TurboCopy.Copier.PageRanges
import TurboCopy.Copier.Reservations
import TurboCopy.Copier.Breaker
import TurboCopy.Copier.Refusals
import TurboCopy.Copier.Cuts
import TurboCopy.Copier.Failures
import TurboCopy.Copier.OneLog
import TurboCopy.Copier.Descent
import TurboCopy.Copier.Accounts
import TurboCopy.Copier.LostResponses
import TurboCopy.Copier.Deliveries
import TurboCopy.Copier.Lookups
import TurboCopy.Copier.Stopping
import TurboCopy.Copier.Reruns
import TurboCopy.Copier.Traversals
import TurboCopy.RetryLoop
import TurboCopy.Slots
import TurboCopy.Integrity
import TurboCopy.Links
import TurboCopy.Matching
import TurboCopy.Pacer.Windows
